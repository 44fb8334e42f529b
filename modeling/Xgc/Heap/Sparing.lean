import Xgc.Heap.Manager

/-! Runs in which requests for memory may be refused. Each call is *spared*: what it is refused does
    no harm, so that a collection still keeps what it has to keep, and an allocation or a handle that
    cannot be had is `NULL`. What spares a call is for the algorithm to say. -/

namespace Xgc

open Lib (Run)

variable {σ : Type}

/-- The effect of a spared call: the one it has when nothing is refused or, for an allocation and for
    a handle, none but that of a collection. -/
def Outcome (rounded : Nat → Nat) (op : ClientOp) (g : Graph) (tracked : List Addr) (result : Addr)
    (g' : Graph) (tracked' : List Addr) : Prop :=
  Effect rounded op g tracked result g' tracked' ∨
    ((op matches .alloc ..) ∨ (op matches .acquire ..)) ∧ result = 0 ∧
      ∃ keep φ, Collected g g' tracked tracked' keep φ

namespace Collector

variable (C : Collector σ) (Spared : World σ → ClientOp → Prop)

/-- One call of a well-behaved client that is spared. What it was refused is forgotten afterwards. -/
def SparedStep (w : World σ) (op : ClientOp) (w' : World σ) : Prop :=
  op.Legal C.maxSize w.graph (C.tracked w) ∧ Spared w op ∧ (op.perform C w).1.cleared = w'

/-- A state that some run of spared calls leads to. -/
def Endures (w : World σ) [Inhabited σ] : Prop :=
  ∃ w₀ ops, C.Starts w₀ ∧ Run (C.SparedStep Spared) w₀ ops w

variable {C Spared}

theorem Starts.endures [Inhabited σ] {w : World σ} (h : C.Starts w) : C.Endures Spared w :=
  ⟨w, [], h, .nil w⟩

/-- One more spared call. -/
theorem Endures.step [Inhabited σ] {w w' : World σ} (h : C.Endures Spared w) (op : ClientOp)
    (hs : C.SparedStep Spared w op w') : C.Endures Spared w' := by
  obtain ⟨w₀, ops, hstart, hrun⟩ := h
  exact ⟨w₀, ops ++ [op], hstart, hrun.snoc hs⟩

/-- No refusals are on record between spared calls. -/
theorem Endures.losses [Inhabited σ] {w : World σ} (h : C.Endures Spared w) :
    w.losses.copies = [] ∧ w.losses.marks = [] := by
  obtain ⟨w₀, ops, ⟨cfg, hooks, mem, -, -, -, -, hg⟩, hrun⟩ := h
  cases hrun with
  | nil => exact hg.2
  | snoc _ hs =>
    obtain ⟨-, -, rfl⟩ := hs
    exact ⟨rfl, rfl⟩

end Collector

namespace Manager

variable {M : Manager σ} {Spared : World σ → ClientOp → Prop}

/-- What an algorithm has to show of its spared calls. -/
structure Sparing [Inhabited σ] (M : Manager σ) (Spared : World σ → ClientOp → Prop) : Prop where
  sound : M.Sound
  tracked : ∀ w : World σ, M.tracked w.cleared = M.tracked w
  cleared : ∀ w, M.Inv w → M.Inv w.cleared
  alloc : ∀ w desc size flags, M.Inv w → desc.Ok → size ≤ M.maxSize →
    Spared w (.alloc desc size flags) →
    M.Inv (gcAllocTyped M.algo w desc size flags).1.cleared ∧
      Outcome M.rounded (.alloc desc size flags) w.graph (M.tracked w)
        (gcAllocTyped M.algo w desc size flags).2 (gcAllocTyped M.algo w desc size flags).1.graph
        (M.tracked (gcAllocTyped M.algo w desc size flags).1)
  minor : ∀ w, M.Inv w → Spared w .collectMinor →
    M.Inv (gcCollectMinor M.algo w).cleared ∧
      ∃ keep φ, Collected w.graph (gcCollectMinor M.algo w).graph
        (M.tracked w) (M.tracked (gcCollectMinor M.algo w)) keep φ
  major : ∀ w, M.Inv w → Spared w .collectMajor →
    M.Inv (gcCollectMajor M.algo w).cleared ∧ ∃ φ, Collected w.graph (gcCollectMajor M.algo w).graph
      (M.tracked w) (M.tracked (gcCollectMajor M.algo w)) {a | w.graph.Reachable a} φ
  full : ∀ w, M.Inv w → Spared w .collectFull →
    M.Inv (gcCollectFull M.algo w).cleared ∧ ∃ φ, Collected w.graph (gcCollectFull M.algo w).graph
      (M.tracked w) (M.tracked (gcCollectFull M.algo w)) {a | w.graph.Reachable a} φ

/-- A spared call keeps the invariant, and its outcome is clean. -/
theorem Sparing.step [Inhabited σ] (hM : M.Sparing Spared) {w w' : World σ} {op : ClientOp}
    (h : M.Inv w) (hs : M.toCollector.SparedStep Spared w op w') :
    M.Inv w' ∧ Outcome M.rounded op w.graph (M.tracked w) (op.perform M.toCollector w).2 w'.graph
      (M.tracked w') := by
  obtain ⟨hl, hspared, rfl⟩ := hs
  rw [hM.tracked]
  cases op with
  | alloc desc size flags => exact hM.alloc w desc size flags h hl.1 hl.2 hspared
  | acquire obj flags =>
    simp only [ClientOp.perform]
    rcases hM.sound.acquire h hl flags with heq | ⟨hinv, heff⟩
    · rw [heq]
      obtain ⟨hinv, htracked⟩ := hM.sound.inv_reshape h w.graph w.mem.refuse
        (SameShape.of_objs rfl _) h.heap h.rt.runtime (h.owns.quiet w.mem.quiet_refuse)
      rw [htracked]
      exact ⟨hM.cleared _ hinv, .inr ⟨.inr rfl, rfl, _, _, .refl h.heap⟩⟩
    · exact ⟨hM.cleared _ hinv, .inl heff⟩
  | collectMinor =>
    obtain ⟨hinv, heff⟩ := hM.minor w h hspared
    exact ⟨hinv, .inl heff⟩
  | collectMajor =>
    obtain ⟨hinv, heff⟩ := hM.major w h hspared
    exact ⟨hinv, .inl heff⟩
  | collectFull =>
    obtain ⟨hinv, heff⟩ := hM.full w h hspared
    exact ⟨hinv, .inl heff⟩
  | storeRef | loadRef | writeBytes | setRoot | get | release =>
    obtain ⟨hinv, heff⟩ := hM.sound.quiet h hl rfl
    exact ⟨hM.cleared _ hinv, .inl heff⟩

/-- The invariant holds wherever a run of spared calls leads. -/
theorem Sparing.endures [Inhabited σ] (hM : M.Sparing Spared) {w : World σ}
    (hw : M.toCollector.Endures Spared w) : M.Inv w := by
  obtain ⟨w₀, ops, hstart, hrun⟩ := hw
  exact hrun.invariant (P := M.Inv) (fun s op t hs hst => (hM.step hs hst).1)
    (hM.sound.start w₀ hstart)

end Manager

end Xgc
