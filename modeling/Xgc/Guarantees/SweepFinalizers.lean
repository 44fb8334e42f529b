import Xgc.Algo.MarkSweepFinalizer
import Xgc.Guarantees.Allocation

/-! Finalizers that allocate while `gc_marksweep_sweep` runs. A new node is put in front of the list,
    behind the loop, if a survivor precedes the dead node; otherwise the loop stands at the head of the
    list and comes to the new node next. -/

namespace Xgc

/-! ### What a finalizer's calls leave as it is -/

/-- There is an object at `a`, in a block of its own. -/
def World.Held {σ : Type} (w : World σ) (a : Addr) : Prop :=
  a ≠ 0 ∧ (∃ n, (a, n) ∈ w.mem.blocks) ∧ ∃ o, w.graph.objs a = some o

/-- A node that has been put on the list since `w`, for an object that did not exist then. -/
def NewNode (w w' : MsWorld) (n : GcNode) : Prop :=
  n.marked = false ∧ w'.Held n.obj ∧ (∀ b ∈ w.mem.blocks, b.1 ≠ n.obj) ∧
    ∃ o, w'.graph.objs n.obj = some o ∧ w.graph.history.length ≤ o.tag

/-- Blocks have been taken and nodes put in front of the list; what was there is as it was. -/
structure Grown (w w' : MsWorld) : Prop where
  bound : w'.stateBound = w.stateBound
  log : w'.graph.log = w.graph.log
  history : w.graph.history.length ≤ w'.graph.history.length
  blocks : ∀ b ∈ w.mem.blocks, b ∈ w'.mem.blocks
  objs : ∀ b ∈ w.mem.blocks, w'.graph.objs b.1 = w.graph.objs b.1
  objects : ∃ news, w'.algoState.objects = news ++ w.algoState.objects ∧
    (news.map GcNode.obj).Nodup ∧ ∀ n ∈ news, NewNode w w' n

namespace Grown

theorem refl (w : MsWorld) : Grown w w where
  bound := rfl
  log := rfl
  history := Nat.le_refl _
  blocks _ hb := hb
  objs _ _ := rfl
  objects := ⟨[], rfl, List.nodup_nil, fun _ hn => absurd hn List.not_mem_nil⟩

theorem held {w w' : MsWorld} (h : Grown w w') {a : Addr} (ha : w.Held a) : w'.Held a := by
  obtain ⟨h0, ⟨n, hn⟩, o, ho⟩ := ha
  exact ⟨h0, ⟨n, h.blocks _ hn⟩, o, (h.objs _ hn).trans ho⟩

theorem trans {w w' w'' : MsWorld} (h : Grown w w') (h' : Grown w' w'') : Grown w w'' where
  bound := h'.bound.trans h.bound
  log := h'.log.trans h.log
  history := h.history.trans h'.history
  blocks b hb := h'.blocks b (h.blocks b hb)
  objs b hb := (h'.objs b (h.blocks b hb)).trans (h.objs b hb)
  objects := by
    obtain ⟨news, heq, hnodup, hnews⟩ := h.objects
    obtain ⟨news', heq', hnodup', hnews'⟩ := h'.objects
    refine ⟨news' ++ news, by rw [heq', heq, List.append_assoc], ?_, ?_⟩
    · rw [List.map_append]
      refine List.nodup_append.mpr ⟨hnodup', hnodup, ?_⟩
      intro a ha b hb hab
      obtain ⟨n', hn', rfl⟩ := List.mem_map.mp ha
      obtain ⟨n, hn, rfl⟩ := List.mem_map.mp hb
      obtain ⟨-, ⟨-, ⟨k, hk⟩, -⟩, -⟩ := hnews n hn
      exact (hnews' n' hn').2.2.1 _ hk hab.symm
    · intro n hn
      rcases List.mem_append.mp hn with hn | hn
      · obtain ⟨hm, hheld, hfresh, o, ho, htag⟩ := hnews' n hn
        exact ⟨hm, hheld, fun b hb => hfresh b (h.blocks b hb), o, ho, h.history.trans htag⟩
      · obtain ⟨hm, hheld, hfresh, o, ho, htag⟩ := hnews n hn
        obtain ⟨-, ⟨k, hk⟩, -⟩ := hheld
        exact ⟨hm, h'.held (hnews n hn).2.1, hfresh, o, (h'.objs _ hk).trans ho, htag⟩

/-- Storing a result that is fresh, or `NULL`, in a root slot. -/
theorem store (c : FinalizerCall) {w w' : MsWorld} (h : Grown w w') {a : Addr}
    (ha : a ≠ 0 → ∀ b ∈ w.mem.blocks, b.1 ≠ a) : Grown w (c.store w' a) where
  bound := h.bound
  log := by
    rw [← h.log]
    unfold FinalizerCall.store
    split <;> rfl
  history := by
    refine h.history.trans (le_of_eq ?_)
    unfold FinalizerCall.store
    split <;> rfl
  blocks := h.blocks
  objs b hb := (c.store_objs w' fun h0 => ha h0 b hb).trans (h.objs b hb)
  objects := by
    obtain ⟨news, heq, hnodup, hnews⟩ := h.objects
    refine ⟨news, heq, hnodup, fun n hn => ?_⟩
    obtain ⟨hm, ⟨h0, hlive, -⟩, hfresh, o, ho, htag⟩ := hnews n hn
    suffices hobj : ∃ o', (c.store w' a).graph.objs n.obj = some o' ∧ o'.tag = o.tag by
      obtain ⟨o', ho', htag'⟩ := hobj
      exact ⟨hm, ⟨h0, hlive, o', ho'⟩, hfresh, o', ho', htag'.symm ▸ htag⟩
    by_cases hna : n.obj = a
    · subst hna
      exact ⟨{ o with bytes := c.bytes }, by simp [FinalizerCall.store, Graph.write, h0, ho], rfl⟩
    · exact ⟨o, (c.store_objs w' fun _ => hna).trans ho, rfl⟩

theorem quiet {w : MsWorld} {m : Mem} (hq : w.mem.Quiet m) : Grown w { w with mem := m } where
  bound := rfl
  log := rfl
  history := Nat.le_refl _
  blocks _ hb := hq.blocks.symm ▸ hb
  objs _ _ := rfl
  objects := ⟨[], rfl, List.nodup_nil, fun _ hn => absurd hn List.not_mem_nil⟩

/-- An object in a block of its own, with nodes for it or for none. -/
theorem add {w w' : MsWorld} {a n : Nat} {m : Mem} (hfit : m.Fits a n) (hw : w.mem.Quiet m)
    (hq : (m.grant a n).Quiet w'.mem) (hbound : w'.stateBound = w.stateBound)
    (hlog : w'.graph.log = w.graph.log)
    (hhist : w.graph.history.length ≤ w'.graph.history.length)
    (hobjs : ∀ b, b ≠ a → w'.graph.objs b = w.graph.objs b)
    (hobj : ∃ o, w'.graph.objs a = some o ∧ o.tag = w.graph.history.length)
    (hnodes : w'.algoState.objects = { obj := a, marked := false } :: w.algoState.objects ∨
      w'.algoState.objects = w.algoState.objects) : Grown w w' := by
  have hblocks : w'.mem.blocks = (a, n) :: w.mem.blocks := by rw [hq.blocks, ← hw.blocks]; rfl
  have hfresh : ∀ b ∈ w.mem.blocks, b.1 ≠ a := fun b hb =>
    (hfit.2.2.2 b (hw.blocks.symm ▸ hb)).1.symm
  refine ⟨hbound, hlog, hhist, fun b hb => hblocks ▸ List.mem_cons_of_mem _ hb,
    fun b hb => hobjs b.1 (hfresh b hb), ?_⟩
  rcases hnodes with heq | heq
  · obtain ⟨o, ho, htag⟩ := hobj
    refine ⟨[_], heq, List.nodup_singleton _, fun k hk => ?_⟩
    obtain rfl := List.mem_singleton.mp hk
    exact ⟨rfl, ⟨Nat.pos_iff_ne_zero.mp hfit.1, ⟨n, hblocks ▸ List.mem_cons_self ..⟩, o, ho⟩,
      hfresh, o, ho, htag.ge⟩
  · exact ⟨[], heq, List.nodup_nil, fun _ hk => absurd hk List.not_mem_nil⟩

/-- A call of `gc_alloc_typed`, whatever it hands out. -/
theorem call (w : MsWorld) (c : FinalizerCall) : Grown w (msFinalizerCall w c) := by
  unfold msFinalizerCall
  by_cases hsmall : c.size < sizeofHeader
  · have heq : gcAllocTyped gcMarksweepStwVtable w c.desc c.size c.flags = (w, 0) := by
      rw [gcAllocTyped, if_pos hsmall]
    rw [heq]
    exact (refl w).store c fun h0 => absurd rfl h0
  rcases gcAllocTyped_ms_any w c.desc (Nat.le_of_not_lt hsmall) c.flags with
    ⟨-, a, m, hfit, hq, heq⟩ | ⟨-, -, m, hq, heq⟩ | ⟨-, -, m, a, hq, hfit, heq⟩
  · rw [heq]
    refine store c ?_ fun _ b hb => (hfit.2.2.2 b hb).1.symm
    refine add hfit (.refl _) hq rfl rfl ?_ (fun b hb => ?_) ?_ (.inl rfl)
    · show w.graph.history.length ≤ (w.graph.history ++ [c.desc]).length
      simp
    · simp [msAllocated, World.addObject, hb]
    · simp [msAllocated, World.addObject, repairHeader, newHeader, zeroHeader]
  · rw [heq]
    exact (quiet hq).store c fun h0 => absurd rfl h0
  · rw [heq]
    refine store c ?_ fun _ b hb => (hfit.2.2.2 b (hq.blocks.symm ▸ hb)).1.symm
    refine add hfit hq (.refl _) rfl rfl ?_ (fun b hb => ?_) ?_ (.inr rfl)
    · simp [World.addObject]
    · simp [World.addObject, hb]
    · simp [World.addObject, repairHeader, zeroHeader]

theorem calls : ∀ (cs : List FinalizerCall) (w : MsWorld), Grown w (cs.foldl msFinalizerCall w)
  | [], w => .refl w
  | c :: cs, w => (call w c).trans (calls cs _)

end Grown

/-! ### Calls that get no node -/

namespace Mem

/-- The requests that `gc_alloc_typed` makes for an object on the list are not all granted. -/
def NoNode (m : Mem) (size : Nat) : Prop :=
  size < sizeofHeader ∨ (m.malloc size).2 = 0 ∨ ((m.malloc size).1.reserve 24).2 = false

instance (m : Mem) (size : Nat) : Decidable (m.NoNode size) := by unfold NoNode; infer_instance

/-- The allocator after such a call: the object without a node is freed, and the framework asks for
    plain memory. -/
def afterNoNode (m : Mem) (size : Nat) : Mem :=
  if size < sizeofHeader then m
  else
    let r := m.malloc size
    let m := if r.2 = 0 then r.1 else (r.1.reserve 24).1.free r.2
    (m.malloc size).1

/-- No call of a list gets a node. -/
def NoNodes : List FinalizerCall → Mem → Prop
  | [], _ => True
  | c :: cs, m => m.NoNode c.size ∧ NoNodes cs (m.afterNoNode c.size)

instance decidableNoNodes : ∀ (cs : List FinalizerCall) (m : Mem), Decidable (NoNodes cs m)
  | [], _ => isTrue trivial
  | c :: cs, m =>
    have := decidableNoNodes cs (m.afterNoNode c.size)
    inferInstanceAs (Decidable (m.NoNode c.size ∧ NoNodes cs (m.afterNoNode c.size)))

/-- The allocator after the calls of such a list. -/
def afterNoNodes (m : Mem) (cs : List FinalizerCall) : Mem :=
  cs.foldl (fun m c => m.afterNoNode c.size) m

end Mem

theorem msGranted_iff {w : MsWorld} (hb : w.stateBound = true) {size : Nat}
    (hsize : sizeofHeader ≤ size) : MsGranted w size ↔ ¬ w.mem.NoNode size := by
  simp [MsGranted, Mem.NoNode, hb, hsize]

/-- When the algorithm has no object to give, the allocator is asked once more. -/
theorem gcAllocTyped_plain_mem {w w₁ : MsWorld} {desc : GcDescriptor} {size : Nat}
    {flags : BitVec 32} (hsize : sizeofHeader ≤ size)
    (hnull : gcMarksweepAlloc w desc size flags = (w₁, 0)) :
    (gcAllocTyped gcMarksweepStwVtable w desc size flags).1.mem = (w₁.mem.malloc size).1 := by
  unfold gcAllocTyped
  rw [if_neg (Nat.not_lt.mpr hsize)]
  simp only [gcMarksweepStwVtable, callHook, hnull, if_true]
  rcases w₁.mem.malloc_cases size with hm | ⟨a, hfit, hm⟩
  · simp [hm]
  · have ha : a ≠ 0 := Nat.pos_iff_ne_zero.mp hfit.1
    simp [hm, ha, World.addObject]

/-- The allocator after a call that gets no node. -/
theorem msFinalizerCall_mem {w : MsWorld} (hb : w.stateBound = true) {c : FinalizerCall}
    (h : w.mem.NoNode c.size) : (msFinalizerCall w c).mem = w.mem.afterNoNode c.size := by
  show (gcAllocTyped gcMarksweepStwVtable w c.desc c.size c.flags).1.mem = _
  unfold Mem.afterNoNode
  split
  · next hsmall => rw [gcAllocTyped, if_pos hsmall]
  · next hsmall =>
    have hsize := Nat.le_of_not_lt hsmall
    rcases w.mem.malloc_cases c.size with hm | ⟨a, hfit, hm⟩
    · have hnull : gcMarksweepAlloc w c.desc c.size c.flags = ({ w with mem := w.mem.refuse }, 0) := by
        simp [gcMarksweepAlloc, hb, hm]
      rw [gcAllocTyped_plain_mem hsize hnull]
      simp only [hm, if_true]
    · have ha : a ≠ 0 := Nat.pos_iff_ne_zero.mp hfit.1
      have hr : ((w.mem.grant a c.size).reserve 24).2 = false := by
        rcases h with h | h | h
        · exact absurd h hsmall
        · rw [hm] at h
          exact absurd h ha
        · rwa [hm] at h
      have hnull : gcMarksweepAlloc w c.desc c.size c.flags =
          ({ w with mem := ((w.mem.grant a c.size).reserve 24).1.free a }, 0) := by
        simp [gcMarksweepAlloc, hb, hm, ha, hr]
      rw [gcAllocTyped_plain_mem hsize hnull]
      simp only [hm, if_neg ha]

/-- A call puts a node on the list unless it gets none. -/
theorem msFinalizerCall_cases {w : MsWorld} (hb : w.stateBound = true) (c : FinalizerCall) :
    (w.mem.NoNode c.size ∧ (msFinalizerCall w c).algoState = w.algoState) ∨
    (¬ w.mem.NoNode c.size ∧
      w.algoState.objects.length < (msFinalizerCall w c).algoState.objects.length) := by
  unfold msFinalizerCall
  by_cases hsmall : c.size < sizeofHeader
  · have heq : gcAllocTyped gcMarksweepStwVtable w c.desc c.size c.flags = (w, 0) := by
      rw [gcAllocTyped, if_pos hsmall]
    rw [heq]
    exact .inl ⟨.inl hsmall, rfl⟩
  have hiff := msGranted_iff hb (Nat.le_of_not_lt hsmall)
  rcases gcAllocTyped_ms_any w c.desc (Nat.le_of_not_lt hsmall) c.flags with
    ⟨hs, a, m, -, -, heq⟩ | ⟨hs, -, m, -, heq⟩ | ⟨hs, -, m, a, -, -, heq⟩ <;> rw [heq]
  · exact .inr ⟨hiff.mp hs, Nat.lt_succ_self _⟩
  · exact .inl ⟨Decidable.not_not.mp fun hn => hs (hiff.mpr hn), rfl⟩
  · exact .inl ⟨Decidable.not_not.mp fun hn => hs (hiff.mpr hn), rfl⟩

/-- So do the calls of a finalizer. -/
theorem msFinalizerCalls_cases : ∀ (cs : List FinalizerCall) {w : MsWorld}, w.stateBound = true →
    (Mem.NoNodes cs w.mem ∧ (cs.foldl msFinalizerCall w).algoState = w.algoState ∧
      (cs.foldl msFinalizerCall w).mem = w.mem.afterNoNodes cs) ∨
    (¬ Mem.NoNodes cs w.mem ∧
      w.algoState.objects.length < (cs.foldl msFinalizerCall w).algoState.objects.length)
  | [], _, _ => .inl ⟨trivial, rfl, rfl⟩
  | c :: cs, w, hb => by
      have hb' : (msFinalizerCall w c).stateBound = true := (Grown.call w c).bound.trans hb
      rw [List.foldl_cons]
      rcases msFinalizerCall_cases hb c with ⟨hno, hstate⟩ | ⟨hno, hlt⟩
      · have hmem := msFinalizerCall_mem hb hno
        rcases msFinalizerCalls_cases cs hb' with ⟨hnos, hs, hm⟩ | ⟨hnos, hlt⟩
        · refine .inl ⟨⟨hno, hmem ▸ hnos⟩, hs.trans hstate, ?_⟩
          rw [hm, hmem]
          rfl
        · refine .inr ⟨fun hn => hnos (hmem ▸ hn.2), ?_⟩
          rw [← hstate]
          exact hlt
      · obtain ⟨news, heq, -⟩ := (Grown.calls cs (msFinalizerCall w c)).objects
        refine .inr ⟨fun hn => hno hn.1, ?_⟩
        rw [heq, List.length_append]
        omega

/-! ### One object of the sweep -/

/-- What the finalizer of the object at `a` calls. -/
def callsAt (fin : Finalizers) (g : Graph) (a : Addr) : List FinalizerCall :=
  match g.objs a with
  | some o => if o.hasFinalizer then fin o.tag else []
  | none => []

/-- No finalizer that runs before the loop comes to the first survivor gets a node. -/
def HeadQuiet (fin : Finalizers) (g : Graph) : List GcNode → Mem → Prop
  | [], _ => True
  | node :: next, m =>
    node.marked = true ∨ Mem.NoNodes (callsAt fin g node.obj) m ∧
      HeadQuiet fin g next ((m.afterNoNodes (callsAt fin g node.obj)).free node.obj)

instance decidableHeadQuiet (fin : Finalizers) (g : Graph) :
    ∀ (nodes : List GcNode) (m : Mem), Decidable (HeadQuiet fin g nodes m)
  | [], _ => isTrue trivial
  | node :: next, m =>
    have := decidableHeadQuiet fin g next
      ((m.afterNoNodes (callsAt fin g node.obj)).free node.obj)
    inferInstanceAs (Decidable (node.marked = true ∨ Mem.NoNodes (callsAt fin g node.obj) m ∧
      HeadQuiet fin g next ((m.afterNoNodes (callsAt fin g node.obj)).free node.obj)))

/-- The log when the finalizer of the object `o` is called. -/
def MsWorld.called (w : MsWorld) (o : GcHeader) : MsWorld :=
  { w with graph := { w.graph with
    log := w.graph.log ++ if o.hasFinalizer then [.finalize o.tag] else [] } }

/-- The loop is behind the nodes `pre` and still has to visit `rest`, which was on the list when the
    sweep started, with the objects `g`. -/
structure SweepAt (g : Graph) (w : MsWorld) (pre rest : List GcNode) : Prop where
  bound : w.stateBound = true
  objects : w.algoState.objects = pre ++ rest
  nodup : ((pre ++ rest).map GcNode.obj).Nodup
  held : ∀ a ∈ (pre ++ rest).map GcNode.obj, w.Held a
  objs : ∀ n ∈ rest, w.graph.objs n.obj = g.objs n.obj
  tags : ∀ n ∈ rest, ∀ o, g.objs n.obj = some o → o.tag < g.history.length
  history : g.history.length ≤ w.graph.history.length
  log : ∀ t, Event.release t ∈ w.graph.log → t < g.history.length

namespace SweepAt

variable {g : Graph} {w : MsWorld} {pre next : List GcNode} {node : GcNode}

/-- A marked node stays. -/
theorem keep (h : SweepAt g w pre (node :: next)) :
    SweepAt g { w with algoState := { objects := pre ++ { node with marked := false } :: next } }
      (pre ++ [{ node with marked := false }]) next where
  bound := h.bound
  objects := by simp
  nodup := by simpa using h.nodup
  held a ha := h.held a (by simpa using ha)
  objs n hn := h.objs n (List.mem_cons_of_mem _ hn)
  tags n hn := h.tags n (List.mem_cons_of_mem _ hn)
  history := h.history
  log := h.log

theorem notMem (h : SweepAt g w pre (node :: next)) : node.obj ∉ (pre ++ next).map GcNode.obj := by
  have hnodup := h.nodup
  rw [List.map_append, List.map_cons, List.nodup_middle, List.nodup_cons, ← List.map_append]
    at hnodup
  exact hnodup.1

/-- An unmarked node is taken off the list. -/
theorem unlink (h : SweepAt g w pre (node :: next)) :
    SweepAt g { w with algoState := { objects := pre ++ next } } pre next where
  bound := h.bound
  objects := rfl
  nodup := h.nodup.sublist ((List.sublist_cons_self node next).append_left pre |>.map _)
  held a ha := h.held a (((List.sublist_cons_self node next).append_left pre |>.map _).subset ha)
  objs n hn := h.objs n (List.mem_cons_of_mem _ hn)
  tags n hn := h.tags n (List.mem_cons_of_mem _ hn)
  history := h.history
  log := h.log

/-- A finalizer is about to run. -/
theorem called (h : SweepAt g w pre next) (o : GcHeader) : SweepAt g (w.called o) pre next :=
  { h with
    log := by
      intro t ht
      rcases List.mem_append.mp ht with ht | ht
      · exact h.log t ht
      · split at ht <;> simp at ht }

/-- The nodes of what a finalizer allocates come before all others. -/
theorem grown (h : SweepAt g w pre next) {w' : MsWorld} (hgrown : Grown w w') {news : List GcNode}
    (hobjects : w'.algoState.objects = news ++ w.algoState.objects)
    (hnodup : (news.map GcNode.obj).Nodup) (hnews : ∀ n ∈ news, NewNode w w' n) :
    SweepAt g w' (news ++ pre) next where
  bound := hgrown.bound.trans h.bound
  objects := by rw [hobjects, h.objects, List.append_assoc]
  nodup := by
    rw [List.append_assoc, List.map_append]
    refine List.nodup_append.mpr ⟨hnodup, h.nodup, ?_⟩
    intro a ha b hb hab
    obtain ⟨n, hn, rfl⟩ := List.mem_map.mp ha
    obtain ⟨-, ⟨k, hk⟩, -⟩ := h.held b hb
    exact (hnews n hn).2.2.1 _ hk hab.symm
  held a ha := by
    rw [List.append_assoc, List.map_append, List.mem_append] at ha
    rcases ha with ha | ha
    · obtain ⟨n, hn, rfl⟩ := List.mem_map.mp ha
      exact (hnews n hn).2.1
    · exact hgrown.held (h.held a ha)
  objs n hn := by
    obtain ⟨-, ⟨k, hk⟩, -⟩ := h.held _ (List.mem_map_of_mem (List.mem_append_right _ hn))
    exact (hgrown.objs _ hk).trans (h.objs n hn)
  tags := h.tags
  history := h.history.trans hgrown.history
  log t ht := h.log t (hgrown.log ▸ ht)

/-- An object that is on the list no longer is released. -/
theorem released (h : SweepAt g w pre next) {a : Addr} (ha : a ∉ (pre ++ next).map GcNode.obj)
    {t : Nat} (ht : t < g.history.length) (stats : GcStats) :
    SweepAt g { w with
      graph := { w.graph.setObj a none with log := w.graph.log ++ [.release t] }
      stats
      mem := w.mem.free a } pre next where
  bound := h.bound
  objects := h.objects
  nodup := h.nodup
  held b hb := by
    obtain ⟨h0, ⟨n, hn⟩, o, ho⟩ := h.held b hb
    have hne : b ≠ a := fun he => ha (he ▸ hb)
    exact ⟨h0, ⟨n, Mem.mem_free hn hne⟩, o, by simpa [hne] using ho⟩
  objs n hn := by
    have hne : n.obj ≠ a := fun he =>
      ha (he ▸ List.mem_map_of_mem (List.mem_append_right _ hn))
    simpa [hne] using h.objs n hn
  tags := h.tags
  history := h.history
  log t' ht' := by
    rcases List.mem_append.mp ht' with ht' | ht'
    · exact h.log t' ht'
    · obtain rfl : t' = t := by simpa using ht'
      exact ht

end SweepAt

/-- `gc_reclaim_object` on an object in a block of its own: the finalizer's calls, then the release. -/
theorem gcReclaimObjectWith_eq (fin : Finalizers) {w : MsWorld} {a : Addr} {o : GcHeader}
    (hheld : w.Held a) (ho : w.graph.objs a = some o) :
    gcReclaimObjectWith (msFinalize fin) w a =
      let w' := (callsAt fin w.graph a).foldl msFinalizerCall (w.called o)
      { w' with
        graph := { w'.graph.setObj a none with log := w'.graph.log ++ [.release o.tag] }
        stats := w'.stats.sub o.size
        mem := w'.mem.free a } := by
  obtain ⟨h0, ⟨n, hn⟩, -⟩ := hheld
  have hobj := (Grown.calls (callsAt fin w.graph a) (w.called o)).objs _ hn
  have hobj' : ((callsAt fin w.graph a).foldl msFinalizerCall (w.called o)).graph.objs a = some o :=
    hobj.trans ho
  have hfinal : (if o.hasFinalizer then
      msFinalize fin { w with graph := { w.graph with log := w.graph.log ++ [.finalize o.tag] } } o.tag
      else w) = (callsAt fin w.graph a).foldl msFinalizerCall (w.called o) := by
    cases hf : o.hasFinalizer <;> simp [callsAt, ho, hf, MsWorld.called, msFinalize]
  unfold gcReclaimObjectWith
  rw [if_neg h0, ho]
  simp only [hfinal, hobj']

/-- Reclaiming the object of an unmarked node, which has been taken off the list. New nodes stand
    between the head of the list and the nodes that the loop has passed. -/
theorem SweepAt.reclaim (fin : Finalizers) {g : Graph} {w : MsWorld} {pre next : List GcNode}
    {node : GcNode} (h : SweepAt g w pre (node :: next)) :
    ∃ news, SweepAt g (gcReclaimObjectWith (msFinalize fin)
        { w with algoState := { objects := pre ++ next } } node.obj) (news ++ pre) next ∧
      ((Mem.NoNodes (callsAt fin g node.obj) w.mem ∧ news = [] ∧
        (gcReclaimObjectWith (msFinalize fin)
          { w with algoState := { objects := pre ++ next } } node.obj).mem =
            (w.mem.afterNoNodes (callsAt fin g node.obj)).free node.obj) ∨
      (¬ Mem.NoNodes (callsAt fin g node.obj) w.mem ∧ ∃ n more, news = n :: more ∧
        n.marked = false ∧ ∃ o, (gcReclaimObjectWith (msFinalize fin)
          { w with algoState := { objects := pre ++ next } } node.obj).graph.objs n.obj = some o ∧
            g.history.length ≤ o.tag)) := by
  set w₀ : MsWorld := { w with algoState := { objects := pre ++ next } } with hw₀
  have hheld : w₀.Held node.obj := h.held _ (by simp)
  obtain ⟨-, ⟨k, hk⟩, o, ho⟩ := id hheld
  have hcalls : callsAt fin w₀.graph node.obj = callsAt fin g node.obj := by
    simp only [callsAt, hw₀, h.objs node (by simp)]
  have heq := gcReclaimObjectWith_eq fin hheld ho
  rw [hcalls] at heq
  rw [heq]
  have hgrown := Grown.calls (callsAt fin g node.obj) (w₀.called o)
  have hcases := msFinalizerCalls_cases (callsAt fin g node.obj) (w := w₀.called o) h.bound
  set w' := (callsAt fin g node.obj).foldl msFinalizerCall (w₀.called o) with hw'
  obtain ⟨news, hobjects, hnodup, hnews⟩ := hgrown.objects
  -- the object is in use while its finalizer runs, so no new object is placed where it is
  have hnewNe : ∀ n ∈ news, n.obj ≠ node.obj := fun n hn => ((hnews n hn).2.2.1 _ hk).symm
  have hnot : node.obj ∉ ((news ++ pre) ++ next).map GcNode.obj := by
    rw [List.append_assoc, List.map_append, List.mem_append, List.mem_map]
    rintro (⟨n, hn, he⟩ | hm)
    · exact hnewNe n hn he
    · exact h.notMem hm
  have htag : o.tag < g.history.length :=
    h.tags node (by simp) o ((h.objs node (by simp)).symm.trans ho)
  refine ⟨news, ((h.unlink.called o).grown hgrown hobjects hnodup hnews).released hnot htag _, ?_⟩
  rcases hcases with ⟨hno, hstate, hmem⟩ | ⟨hno, hlt⟩
  · refine .inl ⟨hno, ?_, congrArg (·.free node.obj) hmem⟩
    rw [hstate] at hobjects
    simpa using hobjects
  · refine .inr ⟨hno, ?_⟩
    -- the node that the list has gained first
    cases news with
    | nil =>
      rw [hobjects] at hlt
      exact absurd hlt (Nat.lt_irrefl _)
    | cons n more =>
      obtain ⟨hm, -, -, o', ho', htag'⟩ := hnews n (List.mem_cons_self ..)
      have hne := hnewNe n (List.mem_cons_self ..)
      exact ⟨n, more, rfl, hm, o', by simpa [hne] using ho', h.history.trans htag'⟩

/-! ### The loop -/

/-- Reclaiming an object only adds to the log. -/
theorem gcReclaimObjectWith_log (fin : Finalizers) (w : MsWorld) (a : Addr) :
    ∀ e ∈ w.graph.log, e ∈ (gcReclaimObjectWith (msFinalize fin) w a).graph.log := by
  intro e he
  have hfinal : ∀ w₀ : MsWorld, e ∈ w₀.graph.log → ∀ t, e ∈ (msFinalize fin w₀ t).graph.log := by
    intro w₀ he₀ t
    rw [msFinalize, (Grown.calls (fin t) w₀).log]
    exact he₀
  unfold gcReclaimObjectWith
  split
  · exact he
  cases w.graph.objs a with
  | none => exact he
  | some o =>
    simp only
    have hcalled : e ∈ (if o.hasFinalizer then msFinalize fin
        { w with graph := { w.graph with log := w.graph.log ++ [.finalize o.tag] } } o.tag
        else w).graph.log := by
      split
      · exact hfinal _ (List.mem_append_left _ he) _
      · exact he
    split
    · exact hcalled
    · exact List.mem_append_left _ hcalled

/-- A reclaimed object is logged. -/
theorem gcReclaimObjectWith_released (fin : Finalizers) {w : MsWorld} {a : Addr} {o : GcHeader}
    (hheld : w.Held a) (ho : w.graph.objs a = some o) :
    Event.release o.tag ∈ (gcReclaimObjectWith (msFinalize fin) w a).graph.log := by
  rw [gcReclaimObjectWith_eq fin hheld ho]
  simp

/-- What is logged stays in the log. -/
theorem gcMarksweepSweepWith_log (fin : Finalizers) : ∀ (fuel : Nat) (link : Option Addr)
    (w : MsWorld) {visited : List Addr} {w' : MsWorld},
    gcMarksweepSweepWith fin fuel link w = some (visited, w') →
    ∀ e ∈ w.graph.log, e ∈ w'.graph.log
  | 0, _, _, _, _, h => nomatch h
  | fuel + 1, link, w, visited, w', h => by
      intro e he
      unfold gcMarksweepSweepWith at h
      split at h
      · obtain ⟨rfl, rfl⟩ := Prod.mk.inj (Option.some.inj h)
        exact he
      · obtain ⟨r, hr, heq⟩ := Option.map_eq_some_iff.mp h
        obtain ⟨rfl, rfl⟩ := Prod.mk.inj heq
        split at hr
        · exact gcMarksweepSweepWith_log fin fuel _ _ hr e he
        · exact gcMarksweepSweepWith_log fin fuel _ _ hr e (gcReclaimObjectWith_log fin _ _ e he)

/-- One round of the loop. -/
theorem SweepAt.round (fin : Finalizers) {g : Graph} {w : MsWorld} {pre next : List GcNode}
    {node : GcNode} (h : SweepAt g w pre (node :: next)) (fuel : Nat) :
    gcMarksweepSweepWith fin (fuel + 1) (linkOf pre) w =
      (if node.marked then
        gcMarksweepSweepWith fin fuel (linkOf (pre ++ [{ node with marked := false }])) { w with
          algoState := { objects := pre ++ { node with marked := false } :: next } }
      else
        gcMarksweepSweepWith fin fuel (linkOf pre) (gcReclaimObjectWith (msFinalize fin)
          { w with algoState := { objects := pre ++ next } } node.obj)).map
        fun r => (node.obj :: r.1, r.2) := by
  simp only [gcMarksweepSweepWith, h.objects, afterLink_append h.nodup, setLink_append h.nodup,
    linkOf_concat]

theorem SweepAt.done (fin : Finalizers) {g : Graph} {w : MsWorld} {pre : List GcNode}
    (h : SweepAt g w pre []) (fuel : Nat) :
    gcMarksweepSweepWith fin (fuel + 1) (linkOf pre) w = some ([], w) := by
  simp only [gcMarksweepSweepWith, h.objects, afterLink_append h.nodup]

/-- Behind a survivor the loop visits what it has not visited yet, and ends. -/
theorem SweepAt.behind (fin : Finalizers) {g : Graph} : ∀ (rest : List GcNode) {pre : List GcNode}
    {fuel : Nat} {w : MsWorld}, pre ≠ [] → SweepAt g w pre rest → rest.length < fuel →
    ∃ w', gcMarksweepSweepWith fin fuel (linkOf pre) w = some (rest.map GcNode.obj, w') ∧
      ∀ t, Event.release t ∈ w'.graph.log → t < g.history.length
  | _, _, 0, _, _, _, hfuel => absurd hfuel (Nat.not_lt_zero _)
  | [], _, fuel + 1, w, _, h, _ => ⟨w, h.done fin fuel, h.log⟩
  | node :: next, pre, fuel + 1, w, hpre, h, hfuel => by
      have hfuel' : next.length < fuel := Nat.lt_of_succ_lt_succ hfuel
      rw [h.round fin fuel]
      by_cases hm : node.marked = true
      · obtain ⟨w', heq, hlog⟩ := SweepAt.behind fin next (by simp) h.keep hfuel'
        exact ⟨w', by rw [if_pos hm, heq, Option.map_some, List.map_cons], hlog⟩
      · obtain ⟨news, hnext, -⟩ := h.reclaim fin
        have hlast : linkOf (news ++ pre) = linkOf pre :=
          congrArg (Option.map GcNode.obj) (List.getLast?_append_of_ne_nil _ hpre)
        obtain ⟨w', heq, hlog⟩ := SweepAt.behind fin next (by simp [hpre]) hnext hfuel'
        rw [hlast] at heq
        exact ⟨w', by rw [if_neg hm, heq, Option.map_some, List.map_cons], hlog⟩

/-- At the head of the list it does the same if no finalizer gets a node. -/
theorem SweepAt.head (fin : Finalizers) {g : Graph} : ∀ (rest : List GcNode) {fuel : Nat}
    {w : MsWorld}, SweepAt g w [] rest → HeadQuiet fin g rest w.mem → rest.length < fuel →
    ∃ w', gcMarksweepSweepWith fin fuel (linkOf []) w = some (rest.map GcNode.obj, w') ∧
      ∀ t, Event.release t ∈ w'.graph.log → t < g.history.length
  | _, 0, _, _, _, hfuel => absurd hfuel (Nat.not_lt_zero _)
  | [], fuel + 1, w, h, _, _ => ⟨w, h.done fin fuel, h.log⟩
  | node :: next, fuel + 1, w, h, hquiet, hfuel => by
      have hfuel' : next.length < fuel := Nat.lt_of_succ_lt_succ hfuel
      rw [h.round fin fuel]
      by_cases hm : node.marked = true
      · obtain ⟨w', heq, hlog⟩ := SweepAt.behind fin next (by simp) h.keep hfuel'
        exact ⟨w', by rw [if_pos hm, heq, Option.map_some, List.map_cons], hlog⟩
      · obtain ⟨hcalls, hrest⟩ := hquiet.resolve_left hm
        obtain ⟨news, hnext, ⟨-, rfl, hmem⟩ | ⟨hno, -⟩⟩ := h.reclaim fin
        · rw [← hmem] at hrest
          obtain ⟨w', heq, hlog⟩ := SweepAt.head fin next hnext hrest hfuel'
          exact ⟨w', by rw [if_neg hm, heq, Option.map_some, List.map_cons], hlog⟩
        · exact absurd hcalls hno

/-- If one does, its object is reclaimed in this sweep, should the loop ever end. -/
theorem SweepAt.head_not_quiet (fin : Finalizers) {g : Graph} : ∀ (rest : List GcNode) {fuel : Nat}
    {w : MsWorld} {visited : List Addr} {w' : MsWorld}, SweepAt g w [] rest →
    ¬ HeadQuiet fin g rest w.mem →
    gcMarksweepSweepWith fin fuel (linkOf []) w = some (visited, w') →
    ∃ t, Event.release t ∈ w'.graph.log ∧ g.history.length ≤ t
  | _, 0, _, _, _, _, _, hloop => nomatch hloop
  | [], _ + 1, _, _, _, _, hquiet, _ => absurd trivial hquiet
  | node :: next, fuel + 1, w, visited, w', h, hquiet, hloop => by
      have hm : ¬ node.marked = true := fun hm => hquiet (.inl hm)
      rw [h.round fin fuel, if_neg hm] at hloop
      obtain ⟨r, hr, heq⟩ := Option.map_eq_some_iff.mp hloop
      obtain ⟨rfl, rfl⟩ := Prod.mk.inj heq
      obtain ⟨news, hnext, ⟨hno, rfl, hmem⟩ | ⟨-, n, more, rfl, hn, o, ho, htag⟩⟩ := h.reclaim fin
      · refine SweepAt.head_not_quiet fin next hnext (fun hq => hquiet (.inr ⟨hno, ?_⟩)) hr
        rwa [hmem] at hq
      · -- the loop comes to the first new node next
        cases fuel with
        | zero => exact nomatch hr
        | succ fuel =>
          have hat : afterLink (gcReclaimObjectWith (msFinalize fin)
              { w with algoState := { objects := [] ++ next } } node.obj).algoState.objects (linkOf []) =
              n :: (more ++ next) := by
            rw [hnext.objects]
            simp [afterLink, linkOf]
          rw [gcMarksweepSweepWith, hat] at hr
          obtain ⟨r', hr', rfl⟩ := Option.map_eq_some_iff.mp hr
          rw [if_neg (by simp [hn])] at hr'
          refine ⟨o.tag, gcMarksweepSweepWith_log fin _ _ _ hr' _ ?_, htag⟩
          exact gcReclaimObjectWith_released fin (hnext.held n.obj (by simp)) ho

/-! ### The sweep of a collection -/

/-- The mark phase leaves the nodes and the heap as they are. -/
theorem sweepAt_swept {w : MsWorld} (h : msManager.Inv w) :
    SweepAt w.graph w.swept [] w.swept.algoState.objects := by
  have hheap : HeapInv w.graph (w.algoState.objects.map GcNode.obj) := h.heap
  obtain ⟨ctx, hphase, hkeys, -, ⟨k, hmem⟩, -⟩ :=
    markPhase_spec hheap.markable h.alg.unmarked h.rt.worklist rfl w.mem
  have hswept : w.swept =
      { w.marked (ctx, false) with algoState := { objects := ctx.nodes } } := by
    have hmarks : gcMarksweepDrainWorklist w.graph w.algoState.objects.length
        (markRoots w.graph (gcMarksweepMarkHandleRoots w.graph (w.markCtx w.algoState.objects))) =
        (ctx, false) := hphase
    simp only [MsWorld.swept, hmarks]
  have hobj : ∀ n ∈ ctx.nodes, n.obj ∈ w.algoState.objects.map GcNode.obj := by
    intro n hn
    rw [← hkeys]
    exact List.mem_map_of_mem hn
  rw [hswept]
  refine ⟨h.rt.bound, rfl, hkeys.symm ▸ hheap.nodup, ?_, fun n _ => rfl, ?_, Nat.le_refl _, ?_⟩
  · intro a ha
    have ha' : a ∈ w.algoState.objects.map GcNode.obj := hkeys ▸ ha
    obtain ⟨n, hn, rfl⟩ := List.mem_map.mp ha'
    obtain ⟨o, ho, -⟩ := hheap.objs _ ha'
    refine ⟨hheap.ne_zero ha', ⟨w.graph.sizeAt n.obj, ?_⟩, o, ho⟩
    have hlive := h.owns.live (n.obj, w.graph.sizeAt n.obj) (List.mem_cons_of_mem _
      (List.mem_append_left _ (List.mem_map_of_mem hn)))
    show _ ∈ ctx.mem.blocks
    rw [hmem]
    exact hlive
  · intro n hn o ho
    have hlt := hheap.tag_lt (hobj n hn)
    rwa [Graph.tagAt_eq ho] at hlt
  · exact fun t ht => ((hheap.released_iff t).mp ht).1

/-- The sweep of a collection ends, it visits each node that it starts with once, and none of the
    objects that finalizers allocate meanwhile is reclaimed. -/
def SweepSafe (fin : Finalizers) (w : MsWorld) : Prop :=
  ∃ fuel visited w', gcMarksweepSweepWith fin fuel none w.swept = some (visited, w') ∧
    (∀ n ∈ w.swept.algoState.objects, visited.count n.obj = 1) ∧
    ∀ t, Event.release t ∈ w'.graph.log → t < w.graph.history.length

/-- Allocating from finalizers is safe exactly when none of those that run before the sweep passes its
    first survivor gets a node. -/
theorem sweep_safe_iff {w : MsWorld} (hw : msCollector.Endures msSpared w) (fin : Finalizers) :
    SweepSafe fin w ↔ HeadQuiet fin w.graph w.swept.algoState.objects w.swept.mem := by
  have hat := sweepAt_swept (msManager_sparing.endures hw)
  constructor
  · rintro ⟨fuel, visited, w', hloop, -, hlog⟩
    by_contra hquiet
    obtain ⟨t, ht, hle⟩ := hat.head_not_quiet fin _ hquiet hloop
    exact absurd (hlog t ht) (Nat.not_lt.mpr hle)
  · intro hquiet
    obtain ⟨w', hloop, hlog⟩ := hat.head fin _ hquiet (Nat.lt_succ_self _)
    refine ⟨_, _, w', hloop, fun n hn => ?_, hlog⟩
    exact List.count_eq_one_of_mem hat.nodup (List.mem_map_of_mem hn)

/-- A cell that is garbage. -/
def msDead : MsWorld := ((ClientOp.alloc cell 24 0).perform msCollector msStart).1.cleared

theorem msDead_endures : msCollector.Endures msSpared msDead :=
  msStart_starts.endures.step (.alloc cell 24 0)
    ⟨⟨cell_ok, by decide⟩, .inr (by decide +kernel), rfl⟩

/-- A second cell, in front of the garbage. -/
def msGuarded : MsWorld :=
  let r := (ClientOp.alloc cell 24 0).perform msCollector msDead
  ((ClientOp.setRoot 1 r.2).perform msCollector r.1.cleared).1.cleared

theorem msGuarded_endures : msCollector.Endures msSpared msGuarded :=
  (msDead_endures.step (.alloc cell 24 0)
    ⟨⟨cell_ok, by decide⟩, .inr (by decide +kernel), rfl⟩).step (.setRoot 1 _)
    ⟨⟨by decide +kernel, .inr (by decide +kernel)⟩, trivial, rfl⟩

theorem sweep_safe_iff_sample : SweepSafe (firstAllocates 0) msGuarded :=
  (sweep_safe_iff msGuarded_endures (firstAllocates 0)).mpr (by decide +kernel)

/-- The cell that the garbage's finalizer allocates is reclaimed at once. -/
theorem sweep_unsafe : msCollector.Endures msSpared msDead ∧ ¬ SweepSafe (firstAllocates 0) msDead := by
  refine ⟨msDead_endures, ?_⟩
  rintro ⟨fuel, visited, w', hloop, -, hlog⟩
  obtain ⟨t, ht, hle⟩ := (sweepAt_swept (msManager_sparing.endures msDead_endures)).head_not_quiet
    (firstAllocates 0) _ (by decide +kernel) hloop
  exact absurd (hlog t ht) (Nat.not_lt.mpr hle)

end Xgc
