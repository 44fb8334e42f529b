import Xgc.Guarantees.Tenants
import Xgc.Algo.Spared

/-! Programs that are refused memory. As long as what is refused costs no live object, all that a
    program notices are the `NULL`s that it is answered: everything else is as if the calls answered so
    had asked for nothing. -/

namespace Xgc

open Lib (Run)

/-- What a step means to the program if its allocation or its handle is `NULL`, or is not. -/
def ProgState.answered (s : ProgState) : ProgOp × Bool → ProgState
  | (.alloc i .., true) => s.setRoot i none
  | (.acquire .., true) => { s with acquired := s.acquired + 1 }
  | (op, _) => s.step op

theorem ProgState.answered_false (s : ProgState) (op : ProgOp) :
    s.answered (op, false) = s.step op := by
  cases op <;> rfl

section

variable {σ : Type}

/-- A step of a program on a collector whose calls are spared, and whether it is answered `NULL`. Calls
    that ask for no memory are as they always are. -/
def ProgOp.SparedStep (C : Collector σ) (Spared : World σ → ClientOp → Prop)
    (s : World σ × List Addr) (call : ProgOp × Bool) (s' : World σ × List Addr) : Prop :=
  match call.1 with
  | .alloc i desc size flags =>
    let r := (ClientOp.alloc desc size flags).perform C s.1
    C.SparedStep Spared s.1 (.alloc desc size flags) r.1.cleared ∧
      C.Step r.1.cleared (.setRoot i r.2) s'.1 ∧ s'.2 = s.2 ∧ call.2 = decide (r.2 = 0)
  | .acquire obj flags =>
    let r := (ClientOp.acquire (obj.eval C s.1 s.2) flags).perform C s.1
    C.SparedStep Spared s.1 (.acquire (obj.eval C s.1 s.2) flags) s'.1 ∧ s'.2 = s.2 ++ [r.2] ∧
      call.2 = decide (r.2 = 0)
  | .collectMinor => C.SparedStep Spared s.1 .collectMinor s'.1 ∧ s'.2 = s.2 ∧ call.2 = false
  | .collectMajor => C.SparedStep Spared s.1 .collectMajor s'.1 ∧ s'.2 = s.2 ∧ call.2 = false
  | .collectFull => C.SparedStep Spared s.1 .collectFull s'.1 ∧ s'.2 = s.2 ∧ call.2 = false
  | op => ProgOp.Step C s op s' ∧ call.2 = false

variable [Inhabited σ] {M : Manager σ} {Spared : World σ → ClientOp → Prop} {w w' : World σ}
  {names names' : List Addr} {s : ProgState}

/-- An allocation, which may collect before it is answered. -/
theorem Manager.Sparing.progAlloc (hM : M.Sparing Spared) (hC : M.toCollector.Runs M.Inv)
    (h : M.Inv w) (r : M.toCollector.Holds s w names) {i : Nat} {desc : GcDescriptor} {size : Nat}
    {flags : BitVec 32} {null : Bool}
    (hst : ProgOp.SparedStep M.toCollector Spared (w, names) (.alloc i desc size flags, null)
      (w', names')) :
    M.Inv w' ∧ M.toCollector.Holds (s.answered (.alloc i desc size flags, null)) w' names' := by
  obtain ⟨halloc, hset, hnames, rfl⟩ := hst
  obtain rfl : names' = names := hnames
  obtain ⟨h₁, ho⟩ := hM.step h halloc
  obtain ⟨h₂, hgraph, htracked⟩ := hC.lawful.step _ _ _ h₁ hset
  refine ⟨h₂, ?_⟩
  have hheap₂ := h₂.heap
  rw [hgraph, htracked] at hheap₂
  unfold Collector.Holds
  rw [hgraph, htracked]
  set r₁ := (ClientOp.alloc desc size flags).perform M.toCollector w
  have hnull : ∀ {keep φ}, Collected w.graph r₁.1.cleared.graph (M.tracked w)
      (M.tracked r₁.1.cleared) keep φ → r₁.2 = 0 →
      Refines M.rounded (s.answered (.alloc i desc size flags, decide (r₁.2 = 0)))
        (r₁.1.cleared.graph.write (.root i) r₁.2) (M.tracked r₁.1.cleared) names'
        {a | (r₁.1.cleared.graph.write (.root i) r₁.2).Reachable a} := by
    intro keep φ hc h0
    have hmoved := Refines.collected h.heap r hc fun a ha => hc.closed.reachable ha
    have hput := hmoved.setRoot (.inl rfl) i
    rw [Graph.refTag_zero] at hput
    rw [decide_eq_true h0]
    rw [h0] at hheap₂ ⊢
    exact hput.reachable hheap₂
  rcases ho with heff | ⟨-, h0, keep, φ, hc⟩
  · simp only [Effect] at heff
    by_cases hsmall : size < sizeofHeader
    · rw [if_pos hsmall] at heff
      obtain ⟨h0, hg, ht⟩ := heff
      have hc : Collected w.graph r₁.1.cleared.graph (M.tracked w) (M.tracked r₁.1.cleared)
          {a | a ∈ M.tracked w} id := by
        rw [hg, ht]
        exact .refl h.heap
      exact hnull hc h0
    · rw [if_neg hsmall] at heff
      obtain ⟨g₁, tracked₁, keep, φ, hc, ha⟩ := heff
      have hmoved := Refines.collected h.heap r hc fun a ha => hc.closed.reachable ha
      obtain ⟨hnew, htag⟩ := hmoved.push (hc.heapInv h.heap) ha
        (hC.size size (Nat.le_of_not_lt hsmall) halloc.1.2)
      have hput := hnew.setRoot (.inr (Set.mem_insert _ _)) i
      rw [htag] at hput
      rw [decide_eq_false ha.ne_zero, ProgState.answered_false, ProgState.step, if_neg hsmall]
      exact hput.reachable hheap₂
  · exact hnull hc h0

/-- A request for a handle. -/
theorem Manager.Sparing.progAcquire (hM : M.Sparing Spared) (hC : M.toCollector.Runs M.Inv)
    (h : M.Inv w) (r : M.toCollector.Holds s w names) {obj : Path} {flags : BitVec 32} {null : Bool}
    (hst : ProgOp.SparedStep M.toCollector Spared (w, names) (.acquire obj flags, null)
      (w', names')) :
    M.Inv w' ∧ M.toCollector.Holds (s.answered (.acquire obj flags, null)) w' names' := by
  obtain ⟨hacquire, hnames, rfl⟩ := hst
  obtain ⟨h', ho⟩ := hM.step h hacquire
  obtain ⟨hp, hobj⟩ := Refines.eval h.heap r (hC.read w) obj
  refine ⟨h', ?_⟩
  simp only at hnames
  subst hnames
  set a := obj.eval M.toCollector w names
  set r₁ := (ClientOp.acquire a flags).perform M.toCollector w
  have hnull : ∀ {keep φ}, Collected w.graph w'.graph (M.tracked w) (M.tracked w') keep φ →
      r₁.2 = 0 → M.toCollector.Holds (s.answered (.acquire obj flags, decide (r₁.2 = 0))) w'
        (names ++ [r₁.2]) := by
    intro keep φ hc h0
    have hmoved := Refines.collected h.heap r hc fun a ha => hc.closed.reachable ha
    rw [decide_eq_true h0, h0]
    exact (hmoved.named (fun k hk => absurd hk List.not_mem_nil) (fun _ => rfl)
      (fun k hk => .inl hk) rfl).reachable h'.heap
  rcases ho with heff | ⟨-, h0, keep, φ, hc⟩
  · simp only [Effect] at heff
    by_cases ha : a = 0
    · rw [if_pos ha] at heff
      obtain ⟨h0, hg, ht⟩ := heff
      have hc : Collected w.graph w'.graph (M.tracked w) (M.tracked w') {a | a ∈ M.tracked w} id := by
        rw [hg, ht]
        exact .refl h.heap
      exact hnull hc h0
    · rw [if_neg ha] at heff
      obtain ⟨hne, -, htracked, runtime, hgraph⟩ := heff
      have hheap' := h'.heap
      rw [Graph.refTag_of_ne _ ha] at hobj
      rw [hgraph, htracked] at hheap'
      rw [decide_eq_false hne, ProgState.answered_false]
      unfold Collector.Holds
      simp only [ProgState.step, ← hobj, hgraph, htracked]
      exact Refines.reachable hheap' (Refines.pushHandle h.heap r (k := ⟨_, runtime, a, flags⟩)
        (hp.resolve_left ha) hne)
  · exact hnull hc h0

/-- A spared step is the step that the program means, as it is answered. -/
theorem Manager.Sparing.progStep (hM : M.Sparing Spared) (hC : M.toCollector.Runs M.Inv)
    (h : M.Inv w) (r : M.toCollector.Holds s w names) {call : ProgOp × Bool}
    (hst : ProgOp.SparedStep M.toCollector Spared (w, names) call (w', names')) :
    M.Inv w' ∧ M.toCollector.Holds (s.answered call) w' names' := by
  obtain ⟨op, null⟩ := call
  cases op with
  | alloc i desc size flags => exact hM.progAlloc hC h r hst
  | acquire obj flags => exact hM.progAcquire hC h r hst
  | collectMinor =>
    obtain ⟨hst, hnames, rfl⟩ := hst
    obtain rfl : names' = names := hnames
    obtain ⟨h', heff | ⟨hop, -⟩⟩ := hM.step h hst
    · obtain ⟨keep, φ, hc⟩ := heff
      exact ⟨h', hC.collect h r h' hc⟩
    · simp at hop
  | collectMajor | collectFull =>
    obtain ⟨hst, hnames, rfl⟩ := hst
    obtain rfl : names' = names := hnames
    obtain ⟨h', heff | ⟨hop, -⟩⟩ := hM.step h hst
    · obtain ⟨φ, hc⟩ := heff
      exact ⟨h', hC.collect h r h' hc⟩
    · simp at hop
  | store | write | setRoot | release =>
    obtain ⟨hst, rfl⟩ := hst
    rw [ProgState.answered_false]
    exact hC.step h r hst

/-- So is a run of spared steps. -/
theorem Manager.Sparing.progRun (hM : M.Sparing Spared) (hC : M.toCollector.Runs M.Inv)
    {calls : List (ProgOp × Bool)} (hw : M.toCollector.Starts w)
    (hrun : Run (ProgOp.SparedStep M.toCollector Spared) (w, []) calls (w', names)) :
    M.Inv w' ∧ M.toCollector.Holds (calls.foldl ProgState.answered .init) w' names := by
  have hmeant := Run.foldl (L := fun _ => True) (f := ProgState.answered) calls .init
    fun _ _ => trivial
  refine hrun.lockstep (R := fun (t : World σ × List Addr) s => M.Inv t.1 ∧
    M.toCollector.Holds s t.1 t.2) (fun t s op t' s' hr hst hs => ?_) hmeant
    ⟨hM.sound.start w hw, hC.start hw⟩
  obtain ⟨-, rfl⟩ := hs
  exact hM.progStep hC hr.1 hr.2 hst

end

/-! ### The two algorithms -/

namespace Reclaimer

/-- The collector with the invariant that runs of spared calls keep. -/
def enduring : ∀ k : Reclaimer, Manager k.State
  | genCopyMs => genManager False
  | marksweepStw => msManager

/-- What spares a call. -/
def spared : ∀ k : Reclaimer, World k.State → ClientOp → Prop
  | genCopyMs => genSpared
  | marksweepStw => msSpared

theorem sparing : ∀ k : Reclaimer, k.enduring.Sparing k.spared
  | genCopyMs => genManager_sparing
  | marksweepStw => msManager_sparing

theorem enduring_runs : ∀ k : Reclaimer, k.enduring.toCollector.Runs k.enduring.Inv
  | genCopyMs => (genManager_sound : (genManager False).Sound).runs genCollector_runs.init
  | marksweepStw => msCollector_runs

end Reclaimer

/-- Collections mean nothing, whatever they are refused. -/
theorem answered_computes (calls : List (ProgOp × Bool)) (s : ProgState) :
    (calls.filter fun c => c.1.computes).foldl ProgState.answered s =
      calls.foldl ProgState.answered s := by
  induction calls generalizing s with
  | nil => rfl
  | cons call calls ih =>
    obtain ⟨op, null⟩ := call
    cases op with
    | collectMinor | collectMajor | collectFull => exact ih s
    | alloc | store | write | setRoot | acquire | release => exact ih _

section

variable {k k' : Reclaimer} {w₀ w : World k.State} {v₀ v : World k'.State} {names names' : List Addr}
  {calls calls' : List (ProgOp × Bool)}

/-- A program that is refused memory holds what its steps mean as they have been answered, as long as
    what is refused costs no live object. What it gets at depends on nothing else: not on the
    algorithm, not on which requests were refused behind an answer, not on the collections. -/
theorem answers_decide (hw : k.enduring.Starts w₀)
    (hrun : Run (ProgOp.SparedStep k.enduring.toCollector k.spared) (w₀, []) calls (w, names)) :
    k.enduring.toCollector.Holds (calls.foldl ProgState.answered .init) w names ∧
    (k'.enduring.Starts v₀ →
      Run (ProgOp.SparedStep k'.enduring.toCollector k'.spared) (v₀, []) calls' (v, names') →
      (calls.filter fun c => c.1.computes) = (calls'.filter fun c => c.1.computes) →
      ∃ φ, Agree k.enduring.rounded k'.enduring.rounded w.graph v.graph names names' φ) := by
  obtain ⟨h, r⟩ := k.sparing.progRun k.enduring_runs hw hrun
  refine ⟨r, fun hv hrun' hsame => ?_⟩
  obtain ⟨h', r'⟩ := k'.sparing.progRun k'.enduring_runs hv hrun'
  rw [← answered_computes, hsame, answered_computes] at r
  exact exists_agree h.heap h'.heap r r'

end

/-! ### A sample -/

/-- Put a new cell into root slot `i`, or what stands for it. -/
def Collector.tryCell {σ : Type} (C : Collector σ) (i : Nat) (flags : BitVec 32) (w : World σ) :
    World σ :=
  let r := (ClientOp.alloc cell 24 flags).perform C w
  ((ClientOp.setRoot i r.2).perform C r.1.cleared).1

theorem ProgOp.SparedStep.cell {σ : Type} {C : Collector σ} {Spared : World σ → ClientOp → Prop}
    {w : World σ} {names : List Addr} {i : Nat} {flags : BitVec 32} {null : Bool}
    (hmax : 24 ≤ C.maxSize) (hs : Spared w (.alloc cell 24 flags))
    (hi : i ∈ ((ClientOp.alloc cell 24 flags).perform C w).1.graph.hooks.rootSlots)
    (hmem : ((ClientOp.alloc cell 24 flags).perform C w).2 = 0 ∨
      ((ClientOp.alloc cell 24 flags).perform C w).2 ∈
        C.tracked ((ClientOp.alloc cell 24 flags).perform C w).1.cleared)
    (hnull : null = decide (((ClientOp.alloc cell 24 flags).perform C w).2 = 0)) :
    ProgOp.SparedStep C Spared (w, names) (.alloc i cell 24 flags, null)
      (C.tryCell i flags w, names) :=
  ⟨⟨⟨cell_ok, hmax⟩, hs, rfl⟩, ⟨⟨hi, hmem⟩, rfl, rfl, rfl, rfl⟩, rfl, hnull⟩

/-- Runtimes whose allocators refuse all requests from the fifth and from the sixth on. -/
def genShort : GenWorld :=
  (genCollector.sampleStart 256 2 fun n => decide (4 ≤ n)).get (by decide +kernel)

@[inherit_doc genShort]
def msShort : MsWorld :=
  (msCollector.sampleStart 0 2 fun n => decide (5 ≤ n)).get (by decide +kernel)

/-- A cell, and a pinned one that is refused. -/
def shortCalls : List (ProgOp × Bool) :=
  [(.alloc 0 cell 24 0, false), (.alloc 1 cell 24 allocPinned, true)]

theorem genShort_run : Run (ProgOp.SparedStep genCollector genSpared) (genShort, []) shortCalls
    (genCollector.tryCell 1 allocPinned (genCollector.tryCell 0 0 genShort), []) := by
  have hcell : ProgOp.SparedStep genCollector genSpared (genShort, []) (.alloc 0 cell 24 0, false)
      (genCollector.tryCell 0 0 genShort, []) :=
    .cell (by decide) ⟨fun hc => absurd hc (by decide +kernel), .inr (by decide +kernel)⟩
      (by decide +kernel) (.inr (by decide +kernel)) (by decide +kernel)
  have hpinned : ProgOp.SparedStep genCollector genSpared (genCollector.tryCell 0 0 genShort, [])
      (.alloc 1 cell 24 allocPinned, true)
      (genCollector.tryCell 1 allocPinned (genCollector.tryCell 0 0 genShort), []) :=
    .cell (by decide) ⟨fun hc => absurd hc (by decide +kernel), .inl (by decide +kernel)⟩
      (by decide +kernel) (.inl (by decide +kernel)) (by decide +kernel)
  exact ((Run.nil _).snoc hcell).snoc hpinned

theorem msShort_run : Run (ProgOp.SparedStep msCollector msSpared) (msShort, []) shortCalls
    (msCollector.tryCell 1 allocPinned (msCollector.tryCell 0 0 msShort), []) := by
  have hcell : ProgOp.SparedStep msCollector msSpared (msShort, []) (.alloc 0 cell 24 0, false)
      (msCollector.tryCell 0 0 msShort, []) :=
    .cell (by decide) (.inr (by decide +kernel)) (by decide +kernel) (.inr (by decide +kernel))
      (by decide +kernel)
  have hpinned : ProgOp.SparedStep msCollector msSpared (msCollector.tryCell 0 0 msShort, [])
      (.alloc 1 cell 24 allocPinned, true)
      (msCollector.tryCell 1 allocPinned (msCollector.tryCell 0 0 msShort), []) :=
    .cell (by decide) (.inl (by decide +kernel)) (by decide +kernel) (.inl (by decide +kernel))
      (by decide +kernel)
  exact ((Run.nil _).snoc hcell).snoc hpinned

/-- The two programs have been answered in the same way, so they have the same cell. -/
theorem answers_decide_sample : ∃ φ, Agree alignedSize id
    (genCollector.tryCell 1 allocPinned (genCollector.tryCell 0 0 genShort)).graph
    (msCollector.tryCell 1 allocPinned (msCollector.tryCell 0 0 msShort)).graph [] [] φ := by
  have hgen : genCollector.Starts genShort :=
    Collector.sampleStart_starts (by decide : 256 < 2 ^ 64) (Option.some_get _).symm
      (by decide +kernel)
  have hms : msCollector.Starts msShort :=
    Collector.sampleStart_starts (by decide : 0 < 2 ^ 64) (Option.some_get _).symm
      (by decide +kernel)
  exact (@answers_decide .genCopyMs .marksweepStw _ _ _ _ _ _ _ _ hgen genShort_run).2 hms
    msShort_run rfl

end Xgc
