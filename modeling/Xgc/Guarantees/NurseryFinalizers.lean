import Xgc.Algo.GenFinalizer
import Xgc.Guarantees.NurseryWalk

/-! Finalizers that allocate while `gc_gen_finalize_dead_nursery` walks over the nursery. What they get
    outside of the nursery is theirs; what they get from the nursery is lost, for the collection ends
    with an empty nursery. -/

namespace Xgc

open Lib (Block)

/-! ### Calls that take nothing from the nursery -/

/-- The address `a` lies in a live block, or is that of one. -/
def Mem.Taken (m : Mem) (a : Nat) : Prop := ∃ b ∈ m.blocks, a = b.1 ∨ b.1 ≤ a ∧ a < b.1 + b.2

theorem Mem.not_taken {m : Mem} {a n : Nat} (h : ∀ b ∈ m.blocks, Block.Apart (a, n) b) :
    ¬ m.Taken a := by
  rintro ⟨b, hb, hab⟩
  obtain ⟨hne, hle⟩ := h b hb
  simp only at hne hle
  omega

/-- Memory has been taken and old objects have been added; the nursery, and what had been taken, is as
    it was. -/
structure GenGrown (w w' : GenWorld) : Prop where
  bound : w'.stateBound = w.stateBound
  state : ∃ nodes, w'.algoState = { w.algoState with oldObjects := nodes }
  fault : w'.mem.fault = w.mem.fault
  blocks : ∀ b ∈ w.mem.blocks, b ∈ w'.mem.blocks
  apart : w.mem.blocks.Pairwise Block.Apart → w'.mem.blocks.Pairwise Block.Apart
  objs : ∀ a, w.mem.Taken a → w'.graph.objs a = w.graph.objs a

/-- `w'` has, since `w`, a new object at `a` in a block of `n` bytes of its own. -/
def Served (w w' : GenWorld) (a n : Nat) (desc : GcDescriptor) : Prop :=
  (∀ b ∈ w.mem.blocks, Block.Apart (a, n) b) ∧ (a, n) ∈ w'.mem.blocks ∧
    ∃ o, w'.graph.objs a = some o ∧ o.desc = some desc

namespace GenGrown

variable {w w' w'' : GenWorld}

theorem refl (w : GenWorld) : GenGrown w w where
  bound := rfl
  state := ⟨_, rfl⟩
  fault := rfl
  blocks _ hb := hb
  apart := id
  objs _ _ := rfl

theorem taken (h : GenGrown w w') {a : Nat} (ha : w.mem.Taken a) : w'.mem.Taken a := by
  obtain ⟨b, hb, hab⟩ := ha
  exact ⟨b, h.blocks b hb, hab⟩

theorem trans (h : GenGrown w w') (h' : GenGrown w' w'') : GenGrown w w'' where
  bound := h'.bound.trans h.bound
  state := by
    obtain ⟨nodes, heq⟩ := h.state
    obtain ⟨nodes', heq'⟩ := h'.state
    exact ⟨nodes', by rw [heq', heq]⟩
  fault := h'.fault.trans h.fault
  blocks b hb := h'.blocks b (h.blocks b hb)
  apart := h'.apart ∘ h.apart
  objs a ha := (h'.objs a (h.taken ha)).trans (h.objs a ha)

theorem quiet {m : Mem} (hq : w.mem.Quiet m) : GenGrown w { w with mem := m } where
  bound := rfl
  state := ⟨_, rfl⟩
  fault := hq.fault
  blocks _ hb := hq.blocks.symm ▸ hb
  apart h := hq.blocks.symm ▸ h
  objs _ _ := rfl

end GenGrown

/-- A node for an old object, whatever is refused. -/
theorem gcGenAddOldNode_grown (w : GenWorld) (t : Addr) (n : Nat) :
    GenGrown w (gcGenAddOldNode w t n).1 ∧ (gcGenAddOldNode w t n).1.graph = w.graph ∧
      w.mem.Quiet (gcGenAddOldNode w t n).1.mem := by
  have hr := w.mem.quiet_reserve 24
  have hq : (w.mem.reserve 24).1.Quiet
      (gcBarrierRegisterOwner w.barriers t n (w.mem.reserve 24).1).2.1 :=
    CardOp.quiet_perform (w.barriers, (w.mem.reserve 24).1) (.register t n)
  unfold gcGenAddOldNode
  simp only
  split
  · exact ⟨.quiet hr, rfl, hr⟩
  · have hall := hr.trans hq
    split
    · exact ⟨{ GenGrown.quiet hall with }, rfl, hall⟩
    · exact ⟨{ GenGrown.quiet hall with state := ⟨_, rfl⟩ }, rfl, hall⟩

/-- An old object, or none. -/
theorem gcGenAllocOld_grown (w : GenWorld) (desc : GcDescriptor) (n : Nat) (flags : BitVec 32) :
    GenGrown w (gcGenAllocOld w desc n flags).1 ∧
      (gcGenAllocOld w desc n flags).1.graph.log = w.graph.log ∧
      ((gcGenAllocOld w desc n flags).2 ≠ 0 → Served w (gcGenAllocOld w desc n flags).1
        (gcGenAllocOld w desc n flags).2 n desc) := by
  unfold gcGenAllocOld
  rcases w.mem.malloc_cases n with hm | ⟨t, hfit, hm⟩
  · simp only [hm, if_true]
    exact ⟨.quiet w.mem.quiet_refuse, trivial, fun hne => absurd rfl hne⟩
  · obtain ⟨hgrown, hgraph, hq⟩ := gcGenAddOldNode_grown { w with mem := w.mem.grant t n } t
      (n % 2 ^ 32)
    have hne : ∀ a, w.mem.Taken a → a ≠ t :=
      fun a ha he => Mem.not_taken hfit.2.2.2 (he ▸ ha)
    simp only [hm, if_neg (Nat.pos_iff_ne_zero.mp hfit.1)]
    generalize gcGenAddOldNode _ t (n % 2 ^ 32) = r at hgrown hgraph hq ⊢
    obtain ⟨w₁, ok⟩ := r
    simp only at hgrown hgraph hq ⊢
    have hblocks : w₁.mem.blocks = (t, n) :: w.mem.blocks := hq.blocks
    split
    · have hfree := Mem.quiet_grant_free hfit hq
      refine ⟨{ GenGrown.quiet hfree with
        bound := hgrown.bound, state := hgrown.state, objs := fun a _ => ?_ },
        congrArg Graph.log hgraph, fun h0 => absurd rfl h0⟩
      rw [hgraph]
    · refine ⟨⟨hgrown.bound, hgrown.state, hq.fault, fun b hb => ?_, fun h => ?_, fun a ha => ?_⟩,
        show w₁.graph.log = w.graph.log by rw [hgraph], fun _ => ⟨hfit.2.2.2, ?_, ?_⟩⟩
      · exact hblocks ▸ List.mem_cons_of_mem _ hb
      · exact hblocks ▸ List.pairwise_cons.mpr ⟨hfit.2.2.2, h⟩
      · simp [World.addObject, hne a ha, hgraph]
      · exact hblocks ▸ List.mem_cons_self ..
      · simp [World.addObject, newHeader]

/-- Whether the call takes its object from the nursery. -/
def NurseryCall (w : GenWorld) (c : FinalizerCall) : Prop :=
  sizeofHeader ≤ c.size ∧ ForNursery w c.size c.flags

instance (w : GenWorld) (c : FinalizerCall) : Decidable (NurseryCall w c) := by
  unfold NurseryCall
  infer_instance

/-- `gc_alloc_typed` when nothing is taken from the nursery: an object in a block of its own, an old
    one or plain memory, or `NULL`. -/
theorem gcAllocTyped_grown {w : GenWorld} (hb : w.stateBound = true) {c : FinalizerCall}
    (hno : ¬ NurseryCall w c) :
    GenGrown w (gcAllocTyped gcGenCopyMsVtable w c.desc c.size c.flags).1 ∧
      (gcAllocTyped gcGenCopyMsVtable w c.desc c.size c.flags).1.graph.log = w.graph.log ∧
      ((gcAllocTyped gcGenCopyMsVtable w c.desc c.size c.flags).2 ≠ 0 →
        ∃ n, (n = alignedSize c.size ∨ n = c.size) ∧
          Served w (gcAllocTyped gcGenCopyMsVtable w c.desc c.size c.flags).1
            (gcAllocTyped gcGenCopyMsVtable w c.desc c.size c.flags).2 n c.desc) := by
  by_cases hsmall : c.size < sizeofHeader
  · have heq : gcAllocTyped gcGenCopyMsVtable w c.desc c.size c.flags = (w, 0) := by
      rw [gcAllocTyped, if_pos hsmall]
    rw [heq]
    exact ⟨.refl w, rfl, fun h0 => absurd rfl h0⟩
  have hsize := Nat.le_of_not_lt hsmall
  have halloc : gcGenAlloc w c.desc c.size c.flags =
      gcGenAllocOld w c.desc (alignedSize c.size) c.flags := by
    unfold gcGenAlloc
    rw [if_neg (by simp [hb, hsize])]
    exact if_neg fun hy => hno ⟨hsize, hy⟩
  obtain ⟨hgrown, hlog, hserved⟩ := gcGenAllocOld_grown w c.desc (alignedSize c.size) c.flags
  rw [← halloc] at hgrown hlog hserved
  generalize hr : gcGenAlloc w c.desc c.size c.flags = r at hgrown hlog hserved
  obtain ⟨w₁, a⟩ := r
  simp only at hgrown hlog hserved
  by_cases h0 : a = 0
  · subst h0
    rcases gcAllocTyped_plain gcGenCopyMsVtable rfl rfl hsize hr with ⟨-, heq⟩ | ⟨-, t, hfit, heq⟩
    · rw [heq]
      exact ⟨hgrown.trans (.quiet w₁.mem.quiet_refuse), hlog, fun h0 => absurd rfl h0⟩
    · have hap : ∀ b ∈ w.mem.blocks, Block.Apart (t, c.size) b :=
        fun b hb => hfit.2.2.2 b (hgrown.blocks b hb)
      rw [heq]
      refine ⟨hgrown.trans ⟨rfl, ⟨_, rfl⟩, rfl, fun b hb => List.mem_cons_of_mem _ hb,
        fun h => List.pairwise_cons.mpr ⟨hfit.2.2.2, h⟩, fun a ha => ?_⟩,
        hlog, fun _ => ⟨c.size, .inr rfl, hap, List.mem_cons_self .., ?_⟩⟩
      · have hne : a ≠ t := fun he => Mem.not_taken hfit.2.2.2 (he ▸ ha)
        simp [World.addObject, hne]
      · simp [World.addObject, repairHeader, zeroHeader]
  · obtain ⟨hap, hlive, o, ho, hd⟩ := hserved h0
    rw [gcAllocTyped_repaired gcGenCopyMsVtable rfl rfl hsize hr h0]
    refine ⟨{ hgrown with objs := fun b hb' => ?_ }, hlog,
      fun _ => ⟨_, .inl rfl, hap, hlive, repairHeader c.desc c.size c.flags o, by simp [ho], ?_⟩⟩
    · have hne : b ≠ a := fun he => Mem.not_taken hap (he ▸ hb')
      simpa [hne] using hgrown.objs b hb'
    · simp [repairHeader, hd]

/-! ### A walk during which nothing is taken from the nursery -/

/-- The object that was given at `a` for the call `c` has its contents and lies in a block apart from the
    nursery. -/
def KeptOutside (w : GenWorld) (a : Addr) (c : FinalizerCall) : Prop :=
  (∃ o, w.graph.objs a = some o ∧ o.desc = some c.desc ∧ o.bytes = c.bytes) ∧
    ∃ n, (n = alignedSize c.size ∨ n = c.size) ∧ (a, n) ∈ w.mem.blocks ∧
      Block.Apart (a, n) (w.algoState.nurserySpace, w.algoState.nurseryCapacity)

/-- Since `w`, nothing has been taken from the nursery. -/
structure Calm (w : GenWorld) (run : GenRun) : Prop where
  grown : GenGrown w run.world
  given : ∀ r ∈ run.given, r.1 ≠ 0 → KeptOutside run.world r.1 r.2

namespace Calm

variable {w : GenWorld} {run : GenRun}

theorem logged (h : Calm w run) (es : List Event) :
    Calm w { run with world := run.world.logged es } :=
  ⟨{ h.grown with }, h.given⟩

theorem nurseryCall_iff (h : Calm w run) (c : FinalizerCall) :
    NurseryCall run.world c ↔ NurseryCall w c := by
  obtain ⟨nodes, hstate⟩ := h.grown.state
  simp only [NurseryCall, ForNursery, hstate]

/-- One call of a finalizer. -/
theorem call (hb : w.stateBound = true)
    (hlive : (w.algoState.nurserySpace, w.algoState.nurseryCapacity) ∈ w.mem.blocks)
    (h : Calm w run) {c : FinalizerCall} (hno : ¬ NurseryCall w c)
    (collect : GenRun → Option GenRun) :
    ∃ run', genFinalizerCall collect run c = some run' ∧ Calm w run' ∧
      run'.world.graph.log = run.world.graph.log := by
  have hno' : ¬ NurseryCall run.world c := fun hn => hno ((h.nurseryCall_iff c).mp hn)
  have hroom : ¬ AllocCollects run.world c.size c.flags := fun hc => hno' ⟨hc.1, hc.2.1⟩
  obtain ⟨nodes, hstate⟩ := h.grown.state
  obtain ⟨hgrown, hlog, hserved⟩ := gcAllocTyped_grown (h.grown.bound.trans hb) hno'
  have heq : genFinalizerCall collect run c = some
      { world := c.store (gcAllocTyped gcGenCopyMsVtable run.world c.desc c.size c.flags).1
          (gcAllocTyped gcGenCopyMsVtable run.world c.desc c.size c.flags).2
        given := run.given ++
          [((gcAllocTyped gcGenCopyMsVtable run.world c.desc c.size c.flags).2, c)] } := by
    rw [genFinalizerCall, if_neg hroom]
    rfl
  refine ⟨_, heq, ?_, ?_⟩
  · generalize gcAllocTyped gcGenCopyMsVtable run.world c.desc c.size c.flags = r
      at hgrown hserved ⊢
    obtain ⟨w₁, a⟩ := r
    simp only at hgrown hserved ⊢
    obtain ⟨nodes', hstate'⟩ := hgrown.state
    have hfresh : ∀ b, run.world.mem.Taken b → a ≠ 0 → b ≠ a := by
      intro b hb' h0 he
      obtain ⟨n, -, hap, -⟩ := hserved h0
      exact Mem.not_taken hap (he ▸ hb')
    have hstored : GenGrown run.world (c.store w₁ a) :=
      { hgrown with
        objs := fun b hb' => (c.store_objs w₁ (hfresh b hb')).trans (hgrown.objs b hb') }
    refine ⟨h.grown.trans hstored, fun r hr h0 => ?_⟩
    rcases List.mem_append.mp hr with hr | hr
    · obtain ⟨⟨o, ho, hd, hbytes⟩, n, hn, hblock, hap⟩ := h.given r hr h0
      have hsame : (c.store w₁ a).algoState.nurserySpace = run.world.algoState.nurserySpace ∧
          (c.store w₁ a).algoState.nurseryCapacity = run.world.algoState.nurseryCapacity := by
        show w₁.algoState.nurserySpace = _ ∧ w₁.algoState.nurseryCapacity = _
        rw [hstate']
        exact ⟨rfl, rfl⟩
      refine ⟨⟨o, ?_, hd, hbytes⟩, n, hn, hstored.blocks _ hblock, ?_⟩
      · exact (hstored.objs r.1 ⟨_, hblock, .inl rfl⟩).trans ho
      · rw [hsame.1, hsame.2]
        exact hap
    · obtain rfl : r = (a, c) := by simpa using hr
      obtain ⟨n, hn, hap, hblock, o, ho, hd⟩ := hserved h0
      have hspace : (w₁.algoState.nurserySpace, w₁.algoState.nurseryCapacity) ∈
          run.world.mem.blocks := by
        rw [hstate', hstate]
        exact h.grown.blocks _ hlive
      exact ⟨⟨{ o with bytes := c.bytes }, by
        simp only at h0
        simp [FinalizerCall.store, Graph.write, h0, ho], hd, rfl⟩, n, hn, hblock, hap _ hspace⟩
  · rw [← hlog]
    unfold FinalizerCall.store
    simp only
    split <;> rfl

/-- The calls of a finalizer. -/
theorem calls (hb : w.stateBound = true)
    (hlive : (w.algoState.nurserySpace, w.algoState.nurseryCapacity) ∈ w.mem.blocks)
    (collect : GenRun → Option GenRun) : ∀ (cs : List FinalizerCall) {run : GenRun}, Calm w run →
    (∀ c ∈ cs, ¬ NurseryCall w c) →
    ∃ run', cs.foldlM (genFinalizerCall collect) run = some run' ∧ Calm w run' ∧
      run'.world.graph.log = run.world.graph.log
  | [], run, h, _ => ⟨run, rfl, h, rfl⟩
  | c :: cs, run, h, hno => by
      obtain ⟨run₁, heq, hcalm, hlog⟩ := h.call hb hlive (hno c List.mem_cons_self) collect
      obtain ⟨run', heq', hcalm', hlog'⟩ := calls hb hlive collect cs hcalm
        fun c' hc' => hno c' (List.mem_cons_of_mem _ hc')
      exact ⟨run', by rw [List.foldlM_cons, heq]; exact heq', hcalm', hlog'.trans hlog⟩

/-- A finalizer that takes nothing from the nursery. -/
theorem finalize (hb : w.stateBound = true)
    (hlive : (w.algoState.nurserySpace, w.algoState.nurseryCapacity) ∈ w.mem.blocks)
    (fin : Finalizers) (collect : GenRun → Option GenRun) (h : Calm w run) {o : GcHeader}
    (hno : o.hasFinalizer = true → ∀ c ∈ fin o.tag, ¬ NurseryCall w c) :
    ∃ run', genFinalize fin collect run o = some run' ∧ Calm w run' ∧
      run'.world.graph.log ++ [.release o.tag] = run.world.graph.log ++ o.deathEvents := by
  unfold genFinalize GcHeader.deathEvents
  cases hf : o.hasFinalizer with
  | false => exact ⟨run, rfl, h, rfl⟩
  | true =>
    obtain ⟨run', heq, hcalm, hlog⟩ := (h.logged [.finalize o.tag]).calls hb hlive collect
      (fin o.tag) (hno hf)
    exact ⟨run', heq, hcalm, by rw [hlog]; simp [GenWorld.logged]⟩

end Calm

/-- The finalizer of the object at `y` takes nothing from the nursery. -/
def QuietYoung (fin : Finalizers) (w : GenWorld) (y : Nat) : Prop :=
  ∀ o, w.graph.objs y = some o → o.hasFinalizer = true → ∀ c ∈ fin o.tag, ¬ NurseryCall w c

instance (fin : Finalizers) (w : GenWorld) (y : Nat) : Decidable (QuietYoung fin w y) :=
  match ho : w.graph.objs y with
  | none => isTrue fun o he => nomatch ho.symm.trans he
  | some o => decidable_of_iff (o.hasFinalizer = true → ∀ c ∈ fin o.tag, ¬ NurseryCall w c)
      ⟨fun h o' he => by
        obtain rfl := Option.some.inj (ho.symm.trans he)
        exact h, fun h => h o ho⟩

/-- The walk over the objects at `ys`, when none of the finalizers that it calls takes anything from the
    nursery. -/
theorem Calm.walk {w : GenWorld} (hb : w.stateBound = true)
    (hlive : (w.algoState.nurserySpace, w.algoState.nurseryCapacity) ∈ w.mem.blocks)
    (fin : Finalizers) (collect : GenRun → Option GenRun) : ∀ (ys : List Nat) {a n : Nat}
    {run : GenRun} (fuel : Nat), Calm w run → Tiles w.graph a n ys →
    (∀ y ∈ ys, w.mem.Taken y ∧ Reclaimable w.graph y) →
    (∀ y ∈ deadYoung w.algoState ys, QuietYoung fin w y) → ys.length ≤ fuel →
    ∃ run', gcGenFinalizeFromWith fin collect fuel a (a + n) run = some run' ∧ Calm w run' ∧
      run'.world.graph.log =
        run.world.graph.log ++ w.graph.deaths (deadYoung w.algoState ys)
  | [], a, n, run, fuel, h, ht, _, _, _ => by
      obtain rfl : n = 0 := ht
      refine ⟨run, ?_, h, by simp [deadYoung, Graph.deaths]⟩
      cases fuel <;> simp [gcGenFinalizeFromWith]
  | y :: ys, a, n, run, 0, _, _, _, _, hf => by simp at hf
  | y :: ys, a, n, run, fuel + 1, h, ht, hys, hquiet, hf => by
      obtain ⟨htaken, o, ho, ⟨d, hd⟩, hh⟩ := hys y List.mem_cons_self
      obtain ⟨rfl, hlt, hstop, hrest⟩ := ht.head ho
      have hevents : o.deathEvents = deathsOf w.graph.history (w.graph.tagAt y) := by
        rw [GcHeader.deathEvents_eq hd hh, Graph.tagAt_eq ho]
      have hys' : ∀ x ∈ ys, w.mem.Taken x ∧ Reclaimable w.graph x :=
        fun x hx => hys x (List.mem_cons_of_mem _ hx)
      obtain ⟨nodes, hstate⟩ := h.grown.state
      have hfind : gcGenFindForward run.world.algoState y = gcGenFindForward w.algoState y := by
        rw [hstate]
        rfl
      rw [gcGenFinalizeFromWith_round fin collect fuel hlt ((h.grown.objs y htaken).trans ho), hfind]
      by_cases hn : (gcGenFindForward w.algoState y).isNone = true
      · have hdead : deadYoung w.algoState (y :: ys) = y :: deadYoung w.algoState ys := by
          rw [deadYoung, List.filter_cons, if_pos hn]
          rfl
        rw [hdead] at hquiet ⊢
        obtain ⟨run₁, heq₁, h₁, hlog₁⟩ := h.finalize hb hlive fin collect (o := o)
          fun hfin => hquiet y List.mem_cons_self o ho hfin
        obtain ⟨run', heq, h', hlog⟩ := Calm.walk hb hlive fin collect ys fuel
          (h₁.logged [.release o.tag]) hrest hys'
          (fun x hx => hquiet x (List.mem_cons_of_mem _ hx)) (Nat.le_of_succ_le_succ hf)
        refine ⟨run', ?_, h', ?_⟩
        · rw [if_pos hn, heq₁, Option.bind_some, (h₁.grown.objs y htaken).trans ho, hstop]
          exact heq
        · rw [hlog]
          show run₁.world.graph.log ++ [.release o.tag] ++ _ = _
          rw [hlog₁, hevents, List.append_assoc]
          rfl
      · have hdead : deadYoung w.algoState (y :: ys) = deadYoung w.algoState ys := by
          rw [deadYoung, List.filter_cons, if_neg hn]
          rfl
        rw [hdead] at hquiet ⊢
        rw [if_neg hn, hstop]
        exact Calm.walk hb hlive fin collect ys fuel h hrest hys' hquiet (Nat.le_of_succ_le_succ hf)

/-! ### Whatever is taken from the nursery -/

/-- The nursery of `w` is where that of `w₀` is, and old objects lie outside. -/
structure Placed (w₀ w : GenWorld) : Prop where
  kept : NurseryKept w w
  space : w.algoState.nurserySpace = w₀.algoState.nurserySpace
  capacity : w.algoState.nurseryCapacity = w₀.algoState.nurseryCapacity
  used_le : w.algoState.nurseryUsed ≤ w.algoState.nurseryCapacity
  limit : w.algoState.nurseryCapacity ≤ ptrdiffMax

/-- An object that has been given to a finalizer lies in the nursery. -/
def NurseryGiven (w : GenWorld) (r : Addr × FinalizerCall) : Prop :=
  r.1 ≠ 0 ∧ sizeofHeader ≤ r.2.size ∧
    ∃ k < w.algoState.nurseryCapacity, r.1 = w.algoState.nurserySpace + k

namespace Placed

variable {w₀ w w' : GenWorld}

theorem of_kept (h : Placed w₀ w) (hk : NurseryKept w w') : Placed w₀ w' where
  kept := hk.rebase
  space := hk.space.trans h.space
  capacity := hk.capacity.trans h.capacity
  used_le := by rw [hk.used, hk.capacity]; exact h.used_le
  limit := by rw [hk.capacity]; exact h.limit

/-- `gc_alloc_typed`, when the nursery has room. -/
theorem alloc (h : Placed w₀ w) {c : FinalizerCall} (hroom : ¬ AllocCollects w c.size c.flags) :
    Placed w₀ (gcAllocTyped gcGenCopyMsVtable w c.desc c.size c.flags).1 ∧
      (NurseryCall w₀ c → c.size + 7 < 2 ^ 64 →
        NurseryGiven w₀ ((gcAllocTyped gcGenCopyMsVtable w c.desc c.size c.flags).2, c)) := by
  have hiff : NurseryCall w₀ c ↔ NurseryCall w c := by
    simp only [NurseryCall, ForNursery, h.capacity]
  by_cases hsmall : c.size < sizeofHeader
  · rw [gcAllocTyped, if_pos hsmall]
    exact ⟨h, fun hc => absurd hc.1 (Nat.not_le.mpr hsmall)⟩
  have hsize := Nat.le_of_not_lt hsmall
  have hbranch : ¬ ((!w.stateBound) = true ∨ c.size < sizeofHeader) := by
    simp [h.kept.bound, hsize]
  by_cases hyoung : ForNursery w c.size c.flags
  · have hle : (w.algoState.nurseryUsed + alignedSize c.size) % 2 ^ 64 ≤
        w.algoState.nurseryCapacity := Nat.le_of_not_lt fun hlt => hroom ⟨hsize, hyoung, hlt⟩
    have halloc : gcGenAlloc w c.desc c.size c.flags =
        gcGenAllocYoung w c.desc (alignedSize c.size) := by
      unfold gcGenAlloc
      rw [if_neg hbranch]
      refine (if_pos hyoung).trans ?_
      rw [if_neg (Nat.not_lt.mpr hle)]
      exact if_pos hle
    have hpos := h.kept.pos
    have hne : (gcGenAllocYoung w c.desc (alignedSize c.size)).2 ≠ 0 := by
      show w.algoState.nurserySpace + w.algoState.nurseryUsed ≠ 0
      omega
    have hkept : NurseryKept (gcGenAllocYoung w c.desc (alignedSize c.size)).1
        (gcGenAllocYoung w c.desc (alignedSize c.size)).1 :=
      { h.kept with space := rfl, capacity := rfl, used := rfl, headers := fun _ _ => rfl }
    rw [gcAllocTyped_repaired gcGenCopyMsVtable rfl rfl hsize halloc hne]
    refine ⟨⟨{ hkept with headers := fun _ _ => rfl }, h.space, h.capacity, hle, h.limit⟩,
      fun _ hwrap => ⟨hne, hsize, w.algoState.nurseryUsed, ?_, h.space ▸ rfl⟩⟩
    have hlimit := h.limit
    have hused := h.used_le
    have hhalf := hyoung.2
    rw [← h.capacity]
    unfold ptrdiffMax at hlimit
    unfold alignedSize at hle hhalf
    unfold sizeofHeader at hsize
    omega
  · refine ⟨?_, fun hc => absurd (hiff.mp hc).2 hyoung⟩
    have halloc : gcGenAlloc w c.desc c.size c.flags =
        gcGenAllocOld w c.desc (alignedSize c.size) c.flags := by
      unfold gcGenAlloc
      rw [if_neg hbranch]
      exact if_neg hyoung
    obtain ⟨hk, hout⟩ := h.kept.allocOld c.desc (alignedSize c.size) c.flags
    exact h.of_kept (NurseryKept.allocTyped hsize (halloc.trans rfl) hk hout)

theorem store (h : Placed w₀ w) (c : FinalizerCall) (a : Addr) : Placed w₀ (c.store w a) := by
  unfold FinalizerCall.store
  simp only
  split
  · exact h.of_kept (h.kept.write (.root c.root) a)
  · exact h.of_kept ((h.kept.modifyObj a (f := fun o => { o with bytes := c.bytes })
      fun _ => rfl).write (.root c.root) a)

theorem logged (h : Placed w₀ w) (es : List Event) : Placed w₀ (w.logged es) :=
  h.of_kept (h.kept.congr rfl rfl rfl rfl rfl)

end Placed

/-- A collection that leaves the nursery where it is, and empty, and takes back nothing. -/
def Collects (w₀ : GenWorld) (collect : GenRun → Option GenRun) : Prop :=
  ∀ run run', Placed w₀ run.world → collect run = some run' →
    Placed w₀ run'.world ∧ run'.world.algoState.nurseryUsed = 0 ∧ ∀ r ∈ run.given, r ∈ run'.given

namespace Placed

variable {w₀ : GenWorld} {collect : GenRun → Option GenRun}

/-- After a collection there is room. -/
theorem call (hc : Collects w₀ collect) {run run' : GenRun} {c : FinalizerCall}
    (h : Placed w₀ run.world) (heq : genFinalizerCall collect run c = some run') :
    Placed w₀ run'.world ∧ (∀ r ∈ run.given, r ∈ run'.given) ∧
      (NurseryCall w₀ c → c.size + 7 < 2 ^ 64 → ∃ r ∈ run'.given, NurseryGiven w₀ r) := by
  obtain ⟨run₁, hrun₁, rfl⟩ := Option.map_eq_some_iff.mp heq
  obtain ⟨h₁, hroom, hgiven⟩ : Placed w₀ run₁.world ∧
      ¬ AllocCollects run₁.world c.size c.flags ∧ ∀ r ∈ run.given, r ∈ run₁.given := by
    split at hrun₁
    · obtain ⟨h₁, hused, hgiven⟩ := hc run run₁ h hrun₁
      refine ⟨h₁, fun ⟨_, hyoung, hfull⟩ => ?_, hgiven⟩
      have hhalf := hyoung.2
      rw [hused] at hfull
      omega
    · next hroom =>
      obtain rfl := Option.some.inj hrun₁
      exact ⟨h, hroom, fun _ hr => hr⟩
  obtain ⟨halloc, hyoung⟩ := h₁.alloc hroom
  refine ⟨halloc.store c _, fun r hr => List.mem_append_left _ (hgiven r hr), fun hn hwrap => ?_⟩
  exact ⟨_, List.mem_append_right _ (List.mem_singleton_self _), hyoung hn hwrap⟩

/-- If a finalizer calls for something from the nursery, it is given it. -/
theorem calls (hc : Collects w₀ collect) : ∀ (cs : List FinalizerCall) {run run' : GenRun},
    Placed w₀ run.world → cs.foldlM (genFinalizerCall collect) run = some run' →
    Placed w₀ run'.world ∧ (∀ r ∈ run.given, r ∈ run'.given) ∧
      ∀ c ∈ cs, NurseryCall w₀ c → c.size + 7 < 2 ^ 64 → ∃ r ∈ run'.given, NurseryGiven w₀ r
  | [], run, run', h, heq => by
      obtain rfl := Option.some.inj heq
      exact ⟨h, fun _ hr => hr, fun _ hc => absurd hc List.not_mem_nil⟩
  | c :: cs, run, run', h, heq => by
      rw [List.foldlM_cons] at heq
      obtain ⟨run₁, heq₁, hrest⟩ := Option.bind_eq_some_iff.mp heq
      obtain ⟨h₁, hgiven₁, hcall⟩ := h.call hc heq₁
      obtain ⟨h', hgiven, hcalls⟩ := calls hc cs h₁ hrest
      refine ⟨h', fun r hr => hgiven r (hgiven₁ r hr), fun c' hc' hn hwrap => ?_⟩
      rcases List.mem_cons.mp hc' with rfl | hc'
      · obtain ⟨r, hr, hnursery⟩ := hcall hn hwrap
        exact ⟨r, hgiven r hr, hnursery⟩
      · exact hcalls c' hc' hn hwrap

theorem finalize (hc : Collects w₀ collect) (fin : Finalizers) {run run' : GenRun} {o : GcHeader}
    (h : Placed w₀ run.world) (heq : genFinalize fin collect run o = some run') :
    Placed w₀ run'.world ∧ (∀ r ∈ run.given, r ∈ run'.given) ∧
      (o.hasFinalizer = true → ∀ c ∈ fin o.tag, NurseryCall w₀ c → c.size + 7 < 2 ^ 64 →
        ∃ r ∈ run'.given, NurseryGiven w₀ r) := by
  unfold genFinalize at heq
  split at heq
  · have hlogged : Placed w₀ (run.world.logged [.finalize o.tag]) := h.logged _
    obtain ⟨h', hgiven, hcalls⟩ := calls hc (fin o.tag) hlogged heq
    exact ⟨h', hgiven, fun _ => hcalls⟩
  · next hf =>
    obtain rfl := Option.some.inj heq
    exact ⟨h, fun _ hr => hr, fun hf' => absurd hf' hf⟩

theorem fail {w : GenWorld} (h : Placed w₀ w) : Placed w₀ w.fail :=
  h.of_kept (h.kept.congr rfl rfl rfl rfl rfl)

/-- Whatever the walk meets. -/
theorem walk (hc : Collects w₀ collect) (fin : Finalizers) : ∀ (fuel cursor stop : Nat)
    {run run' : GenRun}, Placed w₀ run.world →
    gcGenFinalizeFromWith fin collect fuel cursor stop run = some run' →
    Placed w₀ run'.world ∧ ∀ r ∈ run.given, r ∈ run'.given
  | 0, cursor, stop, run, run', h, heq => by
      rw [gcGenFinalizeFromWith] at heq
      split at heq
      · cases heq
      · obtain rfl := Option.some.inj heq
        exact ⟨h, fun _ hr => hr⟩
  | fuel + 1, cursor, stop, run, run', h, heq => by
      rw [gcGenFinalizeFromWith] at heq
      split at heq
      · split at heq
        · obtain rfl := Option.some.inj heq
          exact ⟨h.fail, fun _ hr => hr⟩
        · split at heq
          · obtain ⟨run₁, heq₁, hrest⟩ := Option.bind_eq_some_iff.mp heq
            obtain ⟨h₁, hgiven₁, -⟩ := h.finalize hc fin heq₁
            split at hrest
            · obtain rfl := Option.some.inj hrest
              exact ⟨h₁.fail, hgiven₁⟩
            · obtain ⟨h', hgiven⟩ := walk hc fin fuel _ stop (h₁.logged _) hrest
              exact ⟨h', fun r hr => hgiven r (hgiven₁ r hr)⟩
          · exact walk hc fin fuel _ stop h heq
      · obtain rfl := Option.some.inj heq
        exact ⟨h, fun _ hr => hr⟩

/-- The runtime whose nursery a collection has emptied. -/
theorem emptied {w : GenWorld} (h : Placed w₀ w) (usedBefore : Nat) :
    Placed w₀ (w.emptied usedBefore) where
  kept := { h.kept with space := rfl, capacity := rfl, used := rfl, headers := fun _ _ => rfl }
  space := h.space
  capacity := h.capacity
  used_le := Nat.zero_le _
  limit := h.limit

theorem traced {w : GenWorld} (h : Placed w₀ w) : Placed w₀ w.traced :=
  h.of_kept h.kept.traced

end Placed

/-- A collection with finalizers that allocate, to any depth. -/
theorem gcGenCollectMinorWith_collects (fin : Finalizers) (w₀ : GenWorld) :
    ∀ fuel, Collects w₀ (gcGenCollectMinorWith fin fuel)
  | 0, _, _, _, heq => nomatch heq
  | fuel + 1, run, run', h, heq => by
      have hspace : run.world.algoState.nurserySpace ≠ 0 := Nat.pos_iff_ne_zero.mp h.kept.pos
      rw [gcGenCollectMinorWith, if_neg (by simp [h.kept.bound]), if_neg hspace] at heq
      split at heq
      · next hused =>
        obtain rfl := Option.some.inj heq
        exact ⟨h, hused, fun _ hr => hr⟩
      · obtain ⟨run₁, heq₁, rfl⟩ := Option.map_eq_some_iff.mp heq
        have htraced : Placed w₀ run.world.traced := h.traced
        obtain ⟨h₁, hgiven⟩ :=
          Placed.walk (gcGenCollectMinorWith_collects fin w₀ fuel) fin _ _ _ htraced heq₁
        exact ⟨h₁.emptied _, rfl, hgiven⟩

/-- If a finalizer that the walk is to call takes something from the nursery, then one is given something
    from it, should the walk ever end. -/
theorem Calm.walk_given {w : GenWorld} (hb : w.stateBound = true)
    (hlive : (w.algoState.nurserySpace, w.algoState.nurseryCapacity) ∈ w.mem.blocks)
    {collect : GenRun → Option GenRun} (hc : Collects w collect) {fin : Finalizers}
    (hwrap : ∀ t, ∀ c ∈ fin t, c.size + 7 < 2 ^ 64) : ∀ (ys : List Nat) {a n : Nat}
    {run run' : GenRun} (fuel : Nat), Calm w run → Placed w run.world → Tiles w.graph a n ys →
    (∀ y ∈ ys, w.mem.Taken y ∧ Reclaimable w.graph y) →
    (¬ ∀ y ∈ deadYoung w.algoState ys, QuietYoung fin w y) →
    gcGenFinalizeFromWith fin collect fuel a (a + n) run = some run' →
    ∃ r ∈ run'.given, NurseryGiven w r
  | [], _, _, _, _, _, _, _, _, _, hquiet, _ =>
    absurd (fun _ hy => absurd hy List.not_mem_nil) hquiet
  | y :: ys, a, n, run, run', 0, _, _, ht, _, _, heq => by
      obtain ⟨rfl, hmin, hle, -⟩ := ht
      unfold sizeofHeader at hmin
      rw [gcGenFinalizeFromWith, if_pos (by omega)] at heq
      cases heq
  | y :: ys, a, n, run, run', fuel + 1, h, hp, ht, hys, hquiet, heq => by
      obtain ⟨htaken, o, ho, -⟩ := hys y List.mem_cons_self
      obtain ⟨rfl, hlt, hstop, hrest⟩ := ht.head ho
      have hys' : ∀ x ∈ ys, w.mem.Taken x ∧ Reclaimable w.graph x :=
        fun x hx => hys x (List.mem_cons_of_mem _ hx)
      obtain ⟨nodes, hstate⟩ := h.grown.state
      have hfind : gcGenFindForward run.world.algoState y = gcGenFindForward w.algoState y := by
        rw [hstate]
        rfl
      rw [gcGenFinalizeFromWith_round fin collect fuel hlt ((h.grown.objs y htaken).trans ho),
        hfind] at heq
      by_cases hn : (gcGenFindForward w.algoState y).isNone = true
      · rw [if_pos hn] at heq
        obtain ⟨run₁, heq₁, hnext⟩ := Option.bind_eq_some_iff.mp heq
        obtain ⟨hp₁, -, hgiven⟩ := hp.finalize hc fin heq₁
        by_cases hy : QuietYoung fin w y
        · -- nothing is taken here, so the walk goes on as it would
          obtain ⟨run₂, heq₂, h₂, -⟩ := h.finalize hb hlive fin collect (hy o ho)
          obtain rfl := Option.some.inj (heq₁.symm.trans heq₂)
          rw [(h₂.grown.objs y htaken).trans ho, hstop] at hnext
          refine Calm.walk_given hb hlive hc hwrap ys fuel (h₂.logged [.release o.tag])
            (hp₁.logged _) hrest hys' (fun hall => hquiet fun x hx => ?_) hnext
          rw [deadYoung, List.filter_cons, if_pos hn] at hx
          rcases List.mem_cons.mp hx with rfl | hx
          · exact hy
          · exact hall x hx
        · obtain ⟨o', ho', hf, c, hcall, hcn⟩ : ∃ o', w.graph.objs y = some o' ∧
              o'.hasFinalizer = true ∧ ∃ c ∈ fin o'.tag, NurseryCall w c := by
            simpa [QuietYoung] using hy
          obtain rfl := Option.some.inj (ho.symm.trans ho')
          obtain ⟨r, hr, hnursery⟩ := hgiven hf c hcall hcn (hwrap _ c hcall)
          refine ⟨r, ?_, hnursery⟩
          split at hnext
          · obtain rfl := Option.some.inj hnext
            exact hr
          · exact (Placed.walk hc fin fuel _ _ (hp₁.logged _) hnext).2 r hr
      · rw [if_neg hn, hstop] at heq
        refine Calm.walk_given hb hlive hc hwrap ys fuel h hp hrest hys'
          (fun hall => hquiet fun x hx => hall x ?_) heq
        rwa [deadYoung, List.filter_cons, if_neg hn] at hx

/-! ### The collection -/

/-- The object that was given at `a` for the call `c` is still allocated, in the nursery or in a block
    of its own, and has the contents that the finalizer gave it. -/
def Survives (w : GenWorld) (a : Addr) (c : FinalizerCall) : Prop :=
  (∃ o, w.graph.objs a = some o ∧ o.desc = some c.desc ∧ o.bytes = c.bytes) ∧
    (InNursery w a c.size ∨ ∃ n, (n = alignedSize c.size ∨ n = c.size) ∧ OwnBlock w.mem a n ∧
      Block.Apart (a, n) (w.algoState.nurserySpace, w.algoState.nurseryCapacity))

/-- A minor collection with these finalizers ends, no finalizer has run twice, and whatever they have
    been given is still there. -/
def NurserySafe (fin : Finalizers) (w : GenWorld) : Prop :=
  ∃ fuel run, gcGenCollectMinorWith fin fuel { world := w, given := [] } = some run ∧
    run.world.mem.fault = false ∧ (∀ t, run.world.graph.log.count (.finalize t) ≤ 1) ∧
    ∀ r ∈ run.given, r.1 ≠ 0 → Survives run.world r.1 r.2

/-- The model with finalizers is that of all other results when no finalizer makes a call: in every
    state of a spared run the collection ends, as `gc_gen_collect_minor_impl` does. -/
theorem gcGenCollectMinorWith_silent {w : GenWorld} (hw : genCollector.Endures genSpared w)
    (given : List (Addr × FinalizerCall)) :
    gcGenCollectMinorWith (fun _ => []) (w.algoState.nurseryUsed + 1) { world := w, given } =
      some { world := gcGenCollectMinorImpl w, given } :=
  gcGenCollectMinorWith_nil { world := w, given }
    (genManager_nursery (genManager_sparing.endures hw))

/-- No finalizer of a young object that the collection has not copied takes anything from the nursery. -/
def YoungQuiet (fin : Finalizers) (w : GenWorld) : Prop :=
  ∀ y ∈ deadYoung w.traced.algoState (nurseryObjects w), QuietYoung fin w y

instance (fin : Finalizers) (w : GenWorld) : Decidable (YoungQuiet fin w) := by
  unfold YoungQuiet
  infer_instance

/-- The deaths of tracked objects have not been logged yet. -/
theorem HeapInv.log_deaths_nodup {g : Graph} {tracked : List Addr} (h : HeapInv g tracked)
    {ds : List Addr} (hn : ds.Nodup) (hsub : ∀ a ∈ ds, a ∈ tracked) :
    (g.log ++ g.deaths ds).Nodup := by
  obtain ⟨dead, hl⟩ := h.lives
  have hlog : g.log ++ g.deaths ds = (dead ++ ds.map g.tagAt).flatMap (deathsOf g.history) := by
    rw [hl.log, List.flatMap_append, List.flatMap_map]
    rfl
  rw [hlog]
  refine Lives.deaths_nodup _ (List.nodup_append.mpr ⟨hl.once, ?_, ?_⟩)
  · exact hn.map_on fun a ha b hb => hl.distinct (hsub a ha) (hsub b hb)
  · rintro t ht u hu rfl
    obtain ⟨a, ha, rfl⟩ := List.mem_map.mp hu
    exact hl.disjoint a (hsub a ha) ht

/-- What is known when the walk starts, whatever was refused. -/
structure WalkStart (w : GenWorld) : Prop where
  placed : Placed w.traced w.traced
  tiles : Tiles w.traced.graph w.traced.algoState.nurserySpace w.algoState.nurseryUsed
    (nurseryObjects w)
  young : ∀ y ∈ nurseryObjects w, w.traced.graph.objs y = w.graph.objs y
  objects : ∀ y ∈ nurseryObjects w, w.traced.mem.Taken y ∧ Reclaimable w.traced.graph y
  apart : w.traced.mem.blocks.Pairwise Block.Apart
  noFault : w.traced.mem.fault = false
  log : (w.traced.graph.log ++ w.traced.graph.deaths
    (deadYoung w.traced.algoState (nurseryObjects w))).Nodup

theorem walkStart {w : GenWorld} (h : (genManager False).Inv w)
    (hused : w.algoState.nurseryUsed ≠ 0) : WalkStart w := by
  have hs := genManager_start h
  obtain ⟨traced, hinv, -, -, -⟩ := gcGenCollectMinorImpl_spec h hused
  have hcopied := hinv.copied
  have hnursery := genManager_nursery h
  have htraced := hnursery.of_kept hnursery.kept.traced
  have htags : ∀ y ∈ nurseryObjects w, w.traced.graph.tagAt y = w.graph.tagAt y :=
    fun y hy => by
      have hobj : w.traced.graph.objs y = w.graph.objs y := hcopied.young y hy
      simp only [Graph.tagAt, hobj]
  refine ⟨⟨htraced.kept, rfl, rfl, htraced.used_le, htraced.capacity⟩, ?_, hcopied.young,
    fun y hy => ⟨?_, hcopied.reclaimable hs y hy⟩, hcopied.ok.owns.apart, hcopied.ok.owns.noFault, ?_⟩
  · rw [← hnursery.kept.traced.used]
    exact htraced.tiles
  · have hbounds := htraced.tiles.bounds y hy
    have hsize := htraced.tiles.header y hy
    have hle := htraced.used_le
    unfold sizeofHeader at hsize
    refine ⟨_, htraced.kept.live, .inr ⟨hbounds.1, ?_⟩⟩
    show (y : Nat) < w.traced.algoState.nurserySpace + w.traced.algoState.nurseryCapacity
    omega
  · have hdeaths : w.traced.graph.deaths (deadYoung w.traced.algoState (nurseryObjects w)) =
        w.graph.deaths (deadYoung w.traced.algoState (nurseryObjects w)) := by
      have hhist : w.traced.graph.history = w.graph.history := hcopied.history
      simp only [Graph.deaths, hhist]
      exact List.flatMap_congr fun y hy => by rw [htags y (mem_deadYoung.mp hy).1]
    have hlog : w.traced.graph.log = w.graph.log := hcopied.log
    rw [hdeaths, hlog]
    exact hs.heap.log_deaths_nodup (hs.ok.layout.tiles.nodup.filter _) fun y hy =>
      List.mem_append_right _ (mem_deadYoung.mp hy).1

/-- The condition does not depend on what tracing has done. -/
theorem WalkStart.quietYoung_iff {w : GenWorld} (hs : WalkStart w) (hk : NurseryKept w w)
    (fin : Finalizers) {y : Nat} (hy : y ∈ nurseryObjects w) :
    QuietYoung fin w.traced y ↔ QuietYoung fin w y := by
  simp only [QuietYoung, hs.young y hy, NurseryCall, ForNursery, hk.traced.capacity]

theorem calm_start (w : GenWorld) : Calm w { world := w, given := [] } :=
  ⟨.refl _, fun _ hr => absurd hr List.not_mem_nil⟩

/-- The collection, by its walk. -/
theorem gcGenCollectMinorWith_eq (fin : Finalizers) {w : GenWorld} (hk : NurseryKept w w)
    (hused : w.algoState.nurseryUsed ≠ 0) (fuel : Nat) :
    gcGenCollectMinorWith fin (fuel + 1) { world := w, given := [] } =
      (gcGenFinalizeFromWith fin (gcGenCollectMinorWith fin fuel) fuel
        w.traced.algoState.nurserySpace (w.traced.algoState.nurserySpace + w.algoState.nurseryUsed)
        { world := w.traced, given := [] }).map fun run =>
          { run with world := run.world.emptied w.algoState.nurseryUsed } := by
  rw [gcGenCollectMinorWith, if_neg (by simp [hk.bound]),
    if_neg (Nat.pos_iff_ne_zero.mp hk.pos), if_neg hused]

/-- When nothing is taken from the nursery. -/
theorem YoungQuiet.safe {fin : Finalizers} {w : GenWorld} (hquiet : YoungQuiet fin w)
    (hs : WalkStart w) (hk : NurseryKept w w) (hused : w.algoState.nurseryUsed ≠ 0) :
    NurserySafe fin w := by
  obtain ⟨run, hwalk, hcalm, hlog⟩ := Calm.walk hs.placed.kept.bound hs.placed.kept.live fin
    (gcGenCollectMinorWith fin (nurseryObjects w).length) (nurseryObjects w)
    (nurseryObjects w).length (calm_start _) hs.tiles hs.objects
    (fun y hy => (hs.quietYoung_iff hk fin (mem_deadYoung.mp hy).1).mpr (hquiet y hy)) (Nat.le_refl _)
  obtain ⟨nodes, hstate⟩ := hcalm.grown.state
  refine ⟨(nurseryObjects w).length + 1,
    { run with world := run.world.emptied w.algoState.nurseryUsed }, ?_, ?_, fun t => ?_,
    fun r hr h0 => ?_⟩
  · rw [gcGenCollectMinorWith_eq fin hk hused, hwalk, Option.map_some]
  · exact hcalm.grown.fault.trans hs.noFault
  · have hnodup := hs.log
    rw [← hlog] at hnodup
    exact List.nodup_iff_count_le_one.mp hnodup _
  · obtain ⟨hobj, n, hn, hblock, hap⟩ := hcalm.given r hr h0
    refine ⟨hobj, .inr ⟨n, hn, ⟨hblock, fun b hb hne => ?_⟩, hap⟩⟩
    exact (hcalm.grown.apart hs.apart).forall hblock hb hne.symm

/-- The collection ends with an empty nursery, and what has been taken from it is lost. -/
theorem NurserySafe.quiet {fin : Finalizers} {w : GenWorld} (hsafe : NurserySafe fin w)
    (hwrap : ∀ t, ∀ c ∈ fin t, c.size + 7 < 2 ^ 64) (hs : WalkStart w) (hk : NurseryKept w w)
    (hused : w.algoState.nurseryUsed ≠ 0) : YoungQuiet fin w := by
  obtain ⟨fuel, run, hrun, -, -, hgiven⟩ := hsafe
  by_contra hnot
  have hnot' : ¬ ∀ y ∈ deadYoung w.traced.algoState (nurseryObjects w), QuietYoung fin w.traced y :=
    fun hall => hnot fun y hy => (hs.quietYoung_iff hk fin (mem_deadYoung.mp hy).1).mp (hall y hy)
  cases fuel with
  | zero => exact nomatch hrun
  | succ fuel =>
    rw [gcGenCollectMinorWith_eq fin hk hused] at hrun
    obtain ⟨run₁, hwalk, rfl⟩ := Option.map_eq_some_iff.mp hrun
    have hcollects := gcGenCollectMinorWith_collects fin w.traced fuel
    obtain ⟨r, hr, h0, hsize, k, hk', heq⟩ := Calm.walk_given hs.placed.kept.bound hs.placed.kept.live
      hcollects hwrap (nurseryObjects w) fuel (calm_start _) hs.placed hs.tiles hs.objects hnot' hwalk
    obtain ⟨hplaced, -⟩ := Placed.walk hcollects fin fuel _ _ hs.placed hwalk
    obtain ⟨-, hlies⟩ := hgiven r hr h0
    have hspace : (run₁.world.emptied w.algoState.nurseryUsed).algoState.nurserySpace =
        w.traced.algoState.nurserySpace := hplaced.space
    have hcap : (run₁.world.emptied w.algoState.nurseryUsed).algoState.nurseryCapacity =
        w.traced.algoState.nurseryCapacity := hplaced.capacity
    unfold sizeofHeader at hsize
    rcases hlies with ⟨-, hin, -⟩ | ⟨n, -, -, hap⟩
    · have hempty : (run₁.world.emptied w.algoState.nurseryUsed).algoState.nurseryUsed = 0 := rfl
      rw [hspace, hempty, heq] at hin
      omega
    · rw [hspace, hcap, heq] at hap
      obtain ⟨hne, hsides⟩ := hap
      simp only at hne hsides
      omega

/-- Allocating from finalizers is safe if none of those that are called takes anything from the nursery,
    and only then, as far as rounding up the sizes does not wrap around. -/
theorem nursery_safe_iff {w : GenWorld} (hw : genCollector.Endures genSpared w) (fin : Finalizers) :
    (YoungQuiet fin w → NurserySafe fin w) ∧
      ((∀ t, ∀ c ∈ fin t, c.size + 7 < 2 ^ 64) → NurserySafe fin w → YoungQuiet fin w) := by
  have h := genManager_sparing.endures hw
  have hk := (genManager_nursery h).kept
  by_cases hused : w.algoState.nurseryUsed = 0
  · refine ⟨fun _ => ⟨1, { world := w, given := [] }, ?_, h.owns.noFault, fun t => ?_, ?_⟩,
      fun _ _ y hy => ?_⟩
    · rw [gcGenCollectMinorWith, if_neg (by simp [hk.bound]),
        if_neg (Nat.pos_iff_ne_zero.mp hk.pos), if_pos hused]
    · exact List.nodup_iff_count_le_one.mp h.heap.log_nodup _
    · exact fun _ hr => absurd hr List.not_mem_nil
    · have hy' := (mem_deadYoung.mp hy).1
      rw [nurseryObjects_nil hused] at hy'
      exact absurd hy' List.not_mem_nil
  · have hs := walkStart h hused
    exact ⟨fun hquiet => hquiet.safe hs hk hused, fun hwrap hsafe => hsafe.quiet hwrap hs hk hused⟩

/-- A young cell that is garbage. -/
def genDead : GenWorld := ((ClientOp.alloc cell 24 0).perform genCollector genStart).1.cleared

theorem genDead_endures : genCollector.Endures genSpared genDead :=
  genStart_starts.endures.step (.alloc cell 24 0)
    ⟨⟨cell_ok, by decide⟩, ⟨fun hfull => absurd hfull (by decide +kernel), .inr (by decide +kernel)⟩,
      rfl⟩

theorem nursery_safe_iff_sample : NurserySafe (firstAllocates allocPinned) genDead :=
  (nursery_safe_iff genDead_endures (firstAllocates allocPinned)).1 (by decide +kernel)

/-- The cell that the garbage's finalizer takes from the nursery is lost. -/
theorem nursery_unsafe :
    genCollector.Endures genSpared genDead ∧ ¬ NurserySafe (firstAllocates 0) genDead := by
  have h := genManager_sparing.endures genDead_endures
  refine ⟨genDead_endures, fun hsafe => ?_⟩
  have hused : genDead.algoState.nurseryUsed ≠ 0 := by decide +kernel
  have hwrap : ∀ t, ∀ c ∈ firstAllocates 0 t, c.size + 7 < 2 ^ 64 := by
    intro t c hc
    unfold firstAllocates at hc
    split at hc
    · obtain rfl := List.mem_singleton.mp hc
      decide
    · exact absurd hc List.not_mem_nil
  have hquiet := hsafe.quiet hwrap (walkStart h hused) (genManager_nursery h).kept hused
  exact absurd hquiet (by decide +kernel)

end Xgc
