import Xgc.Algo.Mark
import Xgc.Lib.Reach

/-! What marking and sweeping do. The mark phase keeps the tri-colour invariant over the tracked
    objects, so it marks those that can be reached without following the references of an object
    that `gc_worklist_push` dropped; the sweep keeps the marked nodes and reclaims the others. -/

namespace Xgc

open Lib

/-- The root slots that `scan_roots` visits. -/
def Graph.scannedRoots (g : Graph) : List Nat :=
  match g.hooks.scanRoots with
  | some scan => scan g.roots
  | none => []

/-- The tracked objects that a mark phase starts from. -/
def markStart (g : Graph) (keys : List Addr) : Set Addr :=
  {a | a ∈ keys ∧ a ≠ 0 ∧ ((∃ k ∈ g.handles, k.target = a) ∨ ∃ i ∈ g.scannedRoots, g.roots i = a)}

/-- A traced slot of the object at `a` leads to the tracked object at `b`. -/
def markEdge (g : Graph) (keys : List Addr) (a b : Addr) : Prop :=
  b ∈ keys ∧ b ≠ 0 ∧ ∃ o, g.objs a = some o ∧ ∃ p ∈ o.tracedSlots, o.slots p = b

/-- The marked objects of a list of nodes. -/
def markedIn (nodes : List GcNode) : Set Addr := {a | ∃ n ∈ nodes, n.obj = a ∧ n.marked = true}

/-- The objects whose push was dropped. -/
def droppedIn (g : Graph) (keys : List Addr) (tags : List Nat) : Set Addr :=
  {a | a ∈ keys ∧ g.tagAt a ∈ tags}

/-- What the nodes of a mark phase satisfy before it. -/
structure Markable (g : Graph) (keys : List Addr) : Prop where
  nodup : keys.Nodup
  nonNull : 0 ∉ keys
  objs : ∀ a ∈ keys, ∃ o, g.objs a = some o
  tags : Set.InjOn g.tagAt {a | a ∈ keys}

/-- The invariant of the mark phase over the objects `keys`: `traced` are the objects taken off the
    worklist so far. -/
structure MarkInv (g : Graph) (keys : List Addr) (mem : Mem) (ctx : MarkCtx) (traced : List Addr)
    (pending : Set Addr) : Prop where
  nodes : ctx.nodes.map GcNode.obj = keys
  worklist : ctx.wl.Ok
  items : ctx.wl.items.Nodup
  mem : ∃ k, ctx.mem = { mem with calls := k }
  once : traced.Nodup
  tri : Tricolour (markStart g keys) (markEdge g keys) (markedIn ctx.nodes) {a | a ∈ traced}
    {a | a ∈ ctx.wl.items} (droppedIn g keys ctx.dropped) pending

theorem markedIn_subset (nodes : List GcNode) {a : Addr} (h : a ∈ markedIn nodes) :
    a ∈ nodes.map GcNode.obj := by
  obtain ⟨n, hn, rfl, -⟩ := h
  exact List.mem_map_of_mem hn

theorem markedIn_update {nodes : List GcNode} (hn : (nodes.map GcNode.obj).Nodup) {a : Addr}
    (ha : a ∈ nodes.map GcNode.obj) :
    markedIn (update GcNode.obj a (fun n => { n with marked := true }) nodes) =
      insert a (markedIn nodes) := by
  ext b
  simp only [markedIn, Set.mem_ofPred_eq, Set.mem_insert_iff, mem_update hn]
  constructor
  · rintro ⟨n, ⟨hm, hna⟩ | ⟨m, hm, hma, rfl⟩, rfl, hmark⟩
    · exact .inr ⟨n, hm, rfl, hmark⟩
    · exact .inl hma
  · rintro (rfl | ⟨n, hm, rfl, hmark⟩)
    · obtain ⟨m, hm, hma⟩ := List.mem_map.mp ha
      exact ⟨_, .inr ⟨m, hm, hma, rfl⟩, hma, rfl⟩
    · by_cases hna : n.obj = a
      · exact ⟨_, .inr ⟨n, hm, hna, rfl⟩, rfl, rfl⟩
      · exact ⟨n, .inl ⟨hm, hna⟩, rfl, hmark⟩

section

variable {g : Graph} {keys : List Addr} {mem : Mem} {ctx : MarkCtx} {traced : List Addr}
  {pending : Set Addr}

/-- One more object whose push was dropped. -/
theorem droppedIn_append (hk : Markable g keys) {v : Addr} (hv : v ∈ keys) (dropped : List Nat) :
    droppedIn g keys (dropped ++ [g.tagAt v]) = insert v (droppedIn g keys dropped) := by
  ext x
  simp only [droppedIn, List.mem_append, List.mem_singleton, Set.mem_ofPred_eq, Set.mem_insert_iff]
  constructor
  · rintro ⟨hx, ht | ht⟩
    · exact .inr ⟨hx, ht⟩
    · exact .inl (hk.tags hx hv ht)
  · rintro (rfl | ⟨hx, ht⟩)
    · exact ⟨hv, .inr rfl⟩
    · exact ⟨hx, .inl ht⟩

/-- Nothing is left to do for `v` when it is no tracked object or is marked already. -/
theorem MarkInv.known (h : MarkInv g keys mem ctx traced pending) {v : Addr}
    (hm : v ∈ keys → v ∈ markedIn ctx.nodes) : MarkInv g keys mem ctx traced (pending \ {v}) := by
  refine { h with tri := h.tri.forget Set.sdiff_subset fun x hx => ?_ }
  by_cases hxv : x = v
  · subst hxv
    have hmem : x ∈ keys := by
      cases h.tri.soundPending x hx with
      | root hr => exact hr.1
      | step _ he => exact he.2.1
    exact .inl (hm hmem)
  · exact .inr ⟨hx, hxv⟩

/-- An object is marked, and pushed or dropped. -/
theorem MarkInv.mark (hk : Markable g keys) (h : MarkInv g keys mem ctx traced pending) {v : Addr}
    (hv : v ∈ keys → Reach (markStart g keys)
      (fun a b => a ∈ {a | a ∈ traced} ∧ markEdge g keys a b) v) (h0 : v ≠ 0) {node : GcNode}
    (hl : lookup GcNode.obj v ctx.nodes = some node) (hmark : node.marked = false) :
    MarkInv g keys mem
      { nodes := update GcNode.obj v (fun n => { n with marked := true }) ctx.nodes
        wl := (gcWorklistPush ctx.wl v ctx.mem).1
        mem := (gcWorklistPush ctx.wl v ctx.mem).2.1
        dropped := if (gcWorklistPush ctx.wl v ctx.mem).2.2 then ctx.dropped
          else ctx.dropped ++ [g.tagAt v] } traced (pending \ {v}) := by
  have hnodup : (ctx.nodes.map GcNode.obj).Nodup := by rw [h.nodes]; exact hk.nodup
  obtain ⟨hmem, hobj⟩ := mem_of_lookup hl
  have hvk : v ∈ ctx.nodes.map GcNode.obj := hobj ▸ List.mem_map_of_mem hmem
  have hkeys : v ∈ keys := h.nodes ▸ hvk
  have hunmarked : v ∉ markedIn ctx.nodes := by
    rintro ⟨n, hn, hnv, hnm⟩
    have hfound : lookup GcNode.obj v ctx.nodes = some n := (lookup_eq_some hnodup).mpr ⟨hn, hnv⟩
    obtain rfl := Option.some.inj (hl.symm.trans hfound)
    rw [hmark] at hnm
    exact nomatch hnm
  have hupd := markedIn_update hnodup hvk
  have hmap : (update GcNode.obj v (fun n => { n with marked := true }) ctx.nodes).map
      GcNode.obj = keys := by
    rw [← h.nodes]
    exact map_update (f := fun n : GcNode => { n with marked := true }) (fun _ => rfl) _
  obtain ⟨k, hmemk⟩ := h.mem
  have hfresh : v ∉ ctx.wl.items := fun hi => hunmarked ((h.tri.split v).mpr (.inr (.inl hi)))
  have hforget : ∀ x ∈ pending, x ∈ insert v (markedIn ctx.nodes) ∨ x ∈ pending \ {v} := by
    intro x hx
    by_cases hxv : x = v
    · exact .inl (.inl hxv)
    · exact .inr ⟨hx, hxv⟩
  rcases GcWorklist.push_cases h.worklist h0 ctx.mem with
    ⟨wl', m', hpush, hwl, hitems, k', hm'⟩ | ⟨k', hpush⟩
  · rw [hpush]
    refine ⟨hmap, hwl, ?_, ⟨k', by rw [hm', hmemk]⟩, h.once, ?_⟩
    · show wl'.items.Nodup
      rw [hitems]
      exact List.nodup_cons.mpr ⟨hfresh, h.items⟩
    · have hgray : {a | a ∈ wl'.items} = insert v {a | a ∈ ctx.wl.items} := by
        ext x
        simp [hitems]
      show Tricolour _ _ (markedIn _) _ {a | a ∈ wl'.items} _ _
      rw [hupd, hgray]
      exact (h.tri.shade (hv hkeys) hunmarked).forget Set.sdiff_subset hforget
  · rw [hpush]
    refine ⟨hmap, h.worklist, h.items, ⟨k', by rw [hmemk]⟩, h.once, ?_⟩
    show Tricolour _ _ (markedIn _) _ _ (droppedIn g keys (ctx.dropped ++ [g.tagAt v])) _
    rw [hupd, droppedIn_append hk hkeys]
    exact (h.tri.drop (hv hkeys) hunmarked).forget Set.sdiff_subset hforget

/-- Marking one reference deals with it. -/
theorem MarkInv.markObject (hk : Markable g keys) (h : MarkInv g keys mem ctx traced pending)
    {v : Addr} (hv : v ∈ keys → Reach (markStart g keys)
      (fun a b => a ∈ {a | a ∈ traced} ∧ markEdge g keys a b) v) :
    MarkInv g keys mem (markObject g ctx v) traced (pending \ {v}) := by
  rcases markObject_cases g ctx v with ⟨hsame, hmarked⟩ | ⟨node, h0, hl, hmark, heq⟩
  · rw [hsame]
    refine h.known fun hmem => ?_
    have h0 : v ≠ 0 := fun h0 => hk.nonNull (h0 ▸ hmem)
    obtain ⟨node, hl⟩ := exists_lookup (h.nodes.symm ▸ hmem)
    obtain ⟨hnode, hobj⟩ := mem_of_lookup hl
    exact ⟨node, hnode, hobj, hmarked node h0 hl⟩
  · rw [heq]
    exact h.mark hk hv h0 hl hmark

/-- Marking a list of references deals with all of them. -/
theorem MarkInv.markAll (hk : Markable g keys) : ∀ (vs : List Addr) {ctx : MarkCtx}
    {pending : Set Addr}, MarkInv g keys mem ctx traced pending →
    (∀ v ∈ vs, v ∈ keys → Reach (markStart g keys)
      (fun a b => a ∈ {a | a ∈ traced} ∧ markEdge g keys a b) v) →
    MarkInv g keys mem (markAll g ctx vs) traced (pending \ {v | v ∈ vs})
  | [], ctx, pending, h, _ => by simpa [Xgc.markAll] using h
  | v :: vs, ctx, pending, h, hv => by
      have hstep := h.markObject hk (hv v (List.mem_cons_self ..))
      have hrest := hstep.markAll hk vs fun u hu => hv u (List.mem_cons_of_mem _ hu)
      have hset : (pending \ {v}) \ {u | u ∈ vs} = pending \ {u | u ∈ v :: vs} := by
        ext u
        simp only [Set.mem_sdiff, Set.mem_singleton_iff, Set.mem_ofPred_eq, List.mem_cons]
        tauto
      rwa [hset] at hrest

/-- Before the phase, with unmarked nodes and an empty worklist. -/
theorem MarkInv.init {nodes : List GcNode} (hn : nodes.map GcNode.obj = keys)
    (hunmarked : ∀ n ∈ nodes, n.marked = false) {wl : GcWorklist} (hwl : wl.Ok)
    (hempty : wl.items = []) :
    MarkInv g keys mem { nodes, wl, mem, dropped := [] } [] (markStart g keys) where
  nodes := hn
  worklist := hwl
  items := by simp [hempty]
  mem := ⟨mem.calls, rfl⟩
  once := List.nodup_nil
  tri := by
    have hmarked : markedIn nodes = ∅ := by
      ext a
      simp only [markedIn, Set.mem_ofPred_eq, Set.mem_empty_iff_false, iff_false]
      rintro ⟨n, hm, -, ht⟩
      rw [hunmarked n hm] at ht
      exact nomatch ht
    have hgray : {a | a ∈ wl.items} = ∅ := by simp [hempty]
    have hdropped : droppedIn g keys [] = ∅ := by simp [droppedIn]
    have htraced : {a : Addr | a ∈ ([] : List Addr)} = ∅ := by simp
    show Tricolour _ _ (markedIn nodes) _ {a | a ∈ wl.items} (droppedIn g keys []) _
    rw [hmarked, hgray, hdropped, htraced]
    exact Tricolour.init _ _

/-- Once handles and roots have been looked at, nothing is pending. -/
theorem MarkInv.roots (hk : Markable g keys)
    (h : MarkInv g keys mem ctx [] (markStart g keys)) :
    MarkInv g keys mem (markRoots g (markHandles g ctx)) [] ∅ := by
  have hhandles := h.markAll hk (g.handles.map GcHandle.target) (by
    intro v hv hmem
    obtain ⟨k, hkm, rfl⟩ := List.mem_map.mp hv
    exact .root ⟨hmem, fun h0 => hk.nonNull (h0 ▸ hmem), .inl ⟨k, hkm, rfl⟩⟩)
  have hroots := hhandles.markAll hk (g.scannedRoots.map g.roots) (by
    intro v hv hmem
    obtain ⟨i, hi, rfl⟩ := List.mem_map.mp hv
    exact .root ⟨hmem, fun h0 => hk.nonNull (h0 ▸ hmem), .inr ⟨i, hi, rfl⟩⟩)
  have hctx : markRoots g (markHandles g ctx) =
      Xgc.markAll g (Xgc.markAll g ctx (g.handles.map GcHandle.target))
        (g.scannedRoots.map g.roots) := by
    unfold markRoots Graph.scannedRoots markHandles
    cases g.hooks.scanRoots with
    | some scan => rfl
    | none => rfl
  have hnone : (markStart g keys \ {v | v ∈ g.handles.map GcHandle.target}) \
      {v | v ∈ g.scannedRoots.map g.roots} = ∅ := by
    ext v
    simp only [Set.mem_sdiff, Set.mem_ofPred_eq, Set.mem_empty_iff_false, iff_false]
    rintro ⟨⟨⟨-, -, ⟨k, hkm, rfl⟩ | ⟨i, hi, rfl⟩⟩, hnh⟩, hnr⟩
    · exact hnh (List.mem_map_of_mem hkm)
    · exact hnr (List.mem_map_of_mem hi)
  rw [hctx, ← hnone]
  exact hroots

/-- One round of the loop: an object is taken off the worklist and its slots are followed. -/
theorem MarkInv.pop (hk : Markable g keys) (h : MarkInv g keys mem ctx traced ∅) {y : Addr}
    {ys : List Addr} (hi : ctx.wl.items = y :: ys) :
    ∃ wl, gcWorklistPop ctx.wl = (wl, y) ∧ y ≠ 0 ∧ y ∈ keys ∧ y ∉ traced ∧
      MarkInv g keys mem (markChildren g { ctx with wl } y) (y :: traced) ∅ := by
  obtain ⟨wl, hpop, hwl, hitems, -, -⟩ := GcWorklist.pop_cons h.worklist hi
  have hgray : y ∈ {a | a ∈ ctx.wl.items} := by simp [hi]
  have hmarked : y ∈ markedIn ctx.nodes := (h.tri.split y).mpr (.inr (.inl hgray))
  have hmem : y ∈ keys := h.nodes ▸ markedIn_subset _ hmarked
  have hnew : y ∉ traced := fun ht => h.tri.tracedGray y ht hgray
  obtain ⟨hyys, hys⟩ := List.nodup_cons.mp (hi ▸ h.items)
  obtain ⟨o, ho⟩ := hk.objs y hmem
  have hg : {a | a ∈ ctx.wl.items} \ {y} = {a | a ∈ wl.items} := by
    ext x
    simp only [hi, hitems, Set.mem_sdiff, Set.mem_ofPred_eq, List.mem_cons, Set.mem_singleton_iff]
    constructor
    · rintro ⟨rfl | hx, hne⟩
      · exact absurd rfl hne
      · exact hx
    · exact fun hx => ⟨.inr hx, fun hxy => hyys (hxy ▸ hx)⟩
  have ht : insert y {a | a ∈ traced} = {a | a ∈ y :: traced} := by
    ext x
    simp
  have htri := h.tri.pop hgray
  rw [hg, ht, Set.empty_union] at htri
  have hpopped : MarkInv g keys mem { ctx with wl } (y :: traced) {z | markEdge g keys y z} :=
    ⟨h.nodes, hwl, by rw [hitems]; exact hys, h.mem, List.nodup_cons.mpr ⟨hnew, h.once⟩, htri⟩
  refine ⟨wl, hpop, fun h0 => hk.nonNull (h0 ▸ hmem), hmem, hnew, ?_⟩
  have hall := hpopped.markAll hk (o.tracedSlots.map o.slots) (by
    intro v hv hvk
    obtain ⟨p, hp, rfl⟩ := List.mem_map.mp hv
    refine htri.soundPending _ ⟨hvk, fun h0 => hk.nonNull (h0 ▸ hvk), o, ho, p, hp, rfl⟩)
  have hnone : {z | markEdge g keys y z} \ {v | v ∈ o.tracedSlots.map o.slots} = ∅ := by
    ext v
    simp only [Set.mem_sdiff, Set.mem_ofPred_eq, Set.mem_empty_iff_false, iff_false]
    rintro ⟨⟨-, -, o', ho', p, hp, rfl⟩, hn⟩
    rw [ho] at ho'
    obtain rfl := Option.some.inj ho'
    exact hn (List.mem_map_of_mem hp)
  rw [hnone] at hall
  have hctx : markChildren g { ctx with wl } y =
      Xgc.markAll g { ctx with wl } (o.tracedSlots.map o.slots) := by
    simp only [markChildren, ho]
  rw [hctx]
  exact hall

/-- With as many rounds as there are objects left to take, the loop ends by itself. -/
theorem MarkInv.drain (hk : Markable g keys) : ∀ (fuel : Nat) {ctx : MarkCtx} {traced : List Addr},
    MarkInv g keys mem ctx traced ∅ → keys.length ≤ traced.length + fuel →
    ∃ traced', (markDrain g fuel ctx).2 = false ∧
      MarkInv g keys mem (markDrain g fuel ctx).1 traced' ∅ ∧
      (markDrain g fuel ctx).1.wl.items = []
  | fuel, ctx, traced, h, hfuel => by
      cases hi : ctx.wl.items with
      | nil =>
        rw [markDrain_nil h.worklist hi]
        exact ⟨traced, rfl, h, hi⟩
      | cons y ys =>
        obtain ⟨wl, hpop, h0, hmem, hnew, hnext⟩ := h.pop hk hi
        have hsub : ∀ x ∈ y :: traced, x ∈ keys := by
          intro x hx
          have := (hnext.tri.split x).mpr (.inl hx)
          exact hnext.nodes ▸ markedIn_subset _ this
        have hlen := (List.subperm_of_subset hnext.once hsub).length_le
        rw [List.length_cons] at hlen
        cases fuel with
        | zero => omega
        | succ fuel =>
          rw [markDrain_cons hpop h0]
          exact hnext.drain hk fuel (by rw [List.length_cons]; omega)

end

/-- The mark phase ends, and marks what can be reached without following references of dropped
    objects. -/
theorem markPhase_spec {g : Graph} {nodes : List GcNode} (hk : Markable g (nodes.map GcNode.obj))
    (hunmarked : ∀ n ∈ nodes, n.marked = false) {wl : GcWorklist} (hwl : wl.Ok)
    (hempty : wl.items = []) (mem : Mem) :
    ∃ ctx, markPhase g { nodes, wl, mem, dropped := [] } = (ctx, false) ∧
      ctx.nodes.map GcNode.obj = nodes.map GcNode.obj ∧ ctx.wl.Ok ∧
      (∃ k, ctx.mem = { mem with calls := k }) ∧
      ∀ a, a ∈ markedIn ctx.nodes ↔ Reach (markStart g (nodes.map GcNode.obj))
        (fun a b => g.tagAt a ∉ ctx.dropped ∧ markEdge g (nodes.map GcNode.obj) a b) a := by
  have hinit : MarkInv g (nodes.map GcNode.obj) mem { nodes, wl, mem, dropped := [] } []
    (markStart g (nodes.map GcNode.obj)) := .init rfl hunmarked hwl hempty
  obtain ⟨traced, hend, hinv, hitems⟩ := (hinit.roots hk).drain hk nodes.length (by simp)
  refine ⟨(markPhase g { nodes, wl, mem, dropped := [] }).1, Prod.ext rfl hend, hinv.nodes,
    hinv.worklist, hinv.mem, fun a => ?_⟩
  have hgray : {a | a ∈ (markPhase g { nodes, wl, mem, dropped := [] }).1.wl.items} = ∅ := by
    ext x
    simp [markPhase, hitems]
  have htri := hinv.tri
  unfold markPhase at hgray ⊢
  rw [hgray] at htri
  rw [htri.marked_iff a]
  -- a reachable object is one of the nodes, so being dropped is a matter of its tag
  have hnode : ∀ {x}, x ∈ nodes.map GcNode.obj → (x ∉ droppedIn g (nodes.map GcNode.obj)
      (markDrain g nodes.length (markRoots g (markHandles g ⟨nodes, wl, mem, []⟩))).1.dropped ↔
      g.tagAt x ∉ (markDrain g nodes.length
        (markRoots g (markHandles g ⟨nodes, wl, mem, []⟩))).1.dropped) :=
    fun hx => by simp only [droppedIn, Set.mem_ofPred_eq, hx, true_and]
  have hmem : ∀ {E : Addr → Addr → Prop} {x}, (∀ a b, E a b → b ∈ nodes.map GcNode.obj) →
      Reach (markStart g (nodes.map GcNode.obj)) E x → x ∈ nodes.map GcNode.obj := by
    intro E x hE hx
    cases hx with
    | root hr => exact hr.1
    | step _ he => exact hE _ _ he
  constructor
  · exact Reach.congr fun x y hx he =>
      ⟨(hnode (hmem (fun _ _ he => he.2.1) hx)).mp he.1, he.2⟩
  · exact Reach.congr fun x y hx he =>
      ⟨(hnode (hmem (fun _ _ he => he.2.1) hx)).mpr he.1, he.2⟩

/-! ### Sweeping -/

/-- The sweep keeps the marked nodes in their order and reclaims the objects of the others. -/
theorem sweepNodes_eq {σ : Type} (reclaim : World σ → Addr → World σ) :
    ∀ (nodes : List GcNode) (w : World σ), sweepNodes reclaim nodes w =
      ((nodes.filter GcNode.marked).map fun n => { n with marked := false },
        ((nodes.filter fun n => !n.marked).map GcNode.obj).foldl reclaim w)
  | [], w => rfl
  | n :: nodes, w => by
      by_cases hm : n.marked = true
      · simp [sweepNodes, hm, sweepNodes_eq reclaim nodes]
      · simp [sweepNodes, hm, sweepNodes_eq reclaim nodes]

/-! ### What marking leaves alone -/

/-- Marking has left the tracked objects and the blocks of memory alone. -/
structure MarkKept (ctx ctx' : MarkCtx) : Prop where
  nodes : ctx'.nodes.map GcNode.obj = ctx.nodes.map GcNode.obj
  blocks : ctx'.mem.blocks = ctx.mem.blocks

namespace MarkKept

variable {ctx ctx' ctx'' : MarkCtx} {g : Graph}

theorem refl (ctx : MarkCtx) : MarkKept ctx ctx := ⟨rfl, rfl⟩

theorem trans (h : MarkKept ctx ctx') (h' : MarkKept ctx' ctx'') : MarkKept ctx ctx'' :=
  ⟨h'.nodes.trans h.nodes, h'.blocks.trans h.blocks⟩

theorem markObject (ctx : MarkCtx) (obj : Addr) : MarkKept ctx (Xgc.markObject g ctx obj) := by
  rcases markObject_cases g ctx obj with ⟨heq, -⟩ | ⟨node, -, -, -, heq⟩ <;> rw [heq]
  · exact .refl ctx
  · have hq := GcWorklist.quiet_push ctx.wl obj ctx.mem
    exact ⟨map_update (f := fun n : GcNode => { n with marked := true }) (fun _ => rfl) ctx.nodes,
      hq.blocks⟩

theorem markAll : ∀ (refs : List Addr) (ctx : MarkCtx), MarkKept ctx (Xgc.markAll g ctx refs)
  | [], ctx => .refl ctx
  | a :: refs, ctx => (markObject ctx a).trans (markAll refs (Xgc.markObject g ctx a))

theorem markRoots (ctx : MarkCtx) : MarkKept ctx (Xgc.markRoots g ctx) := by
  unfold Xgc.markRoots
  split
  · exact markAll _ ctx
  · exact .refl ctx

theorem markChildren (ctx : MarkCtx) (obj : Addr) : MarkKept ctx (Xgc.markChildren g ctx obj) := by
  unfold Xgc.markChildren
  split
  · exact ⟨rfl, rfl⟩
  · exact markAll _ ctx

theorem markDrain : ∀ (fuel : Nat) (ctx : MarkCtx), MarkKept ctx (Xgc.markDrain g fuel ctx).1
  | 0, ctx => .refl ctx
  | fuel + 1, ctx => by
      rw [Xgc.markDrain]
      obtain ⟨wl, obj⟩ := gcWorklistPop ctx.wl
      have hpop : MarkKept ctx { ctx with wl } := ⟨rfl, rfl⟩
      simp only
      split
      · exact .refl ctx
      · exact (hpop.trans (markChildren _ obj)).trans (markDrain fuel _)

end MarkKept

end Xgc
