import Xgc.Guarantees.Safety

/-! Programs that are well behaved by their own lights. Whether a program may take a step can be told
    from what its steps so far mean, with no look at addresses, at the collector or at where it has put
    anything. Such a program never misuses a collector, and sees what it means. -/

namespace Xgc

open Lib (Run)

/-! ### What a program may do -/

/-- The reference slots of an object as the program knows it. -/
def ProgObj.layout (rounded : Nat → Nat) (x : ProgObj) : List SlotLoc :=
  x.desc.layout (rounded x.size) x.bytes

/-- The steps that a program may take in the state `s`: it stores into slots that its objects have,
    and the bytes that it writes orphan no reference. Any path may be used, wherever it leads. -/
def ProgOp.Sensible (rounded : Nat → Nat) (maxSize : Nat) (rootSlots : List Nat) (s : ProgState) :
    ProgOp → Prop
  | .alloc i desc size _ => desc.Ok ∧ size ≤ maxSize ∧ i ∈ rootSlots
  | .store owner loc _ =>
    ∃ t x, s.eval owner = some t ∧ s.objs[t]? = some x ∧ loc ∈ x.layout rounded
  | .write obj bytes => ∃ t x, s.eval obj = some t ∧ s.objs[t]? = some x ∧
    ∀ p, x.slots p ≠ none → p ∈ ProgObj.layout rounded { x with bytes }
  | .setRoot i _ => i ∈ rootSlots
  | .acquire .. | .release _ | .collectMinor | .collectMajor | .collectFull => True

section

variable {σ : Type}

/-- The call that a step makes. -/
def ProgOp.call (C : Collector σ) (t : World σ × List Addr) : ProgOp → ClientOp
  | .alloc _ desc size flags => .alloc desc size flags
  | .store owner loc value =>
    .storeRef (owner.eval C t.1 t.2) loc (Path.evalRef C t.1 t.2 value)
  | .write obj bytes => .writeBytes (obj.eval C t.1 t.2) bytes
  | .setRoot i value => .setRoot i (Path.evalRef C t.1 t.2 value)
  | .acquire obj flags => .acquire (obj.eval C t.1 t.2) flags
  | .release n => .release (t.2.getD n 0)
  | .collectMinor => .collectMinor
  | .collectMajor => .collectMajor
  | .collectFull => .collectFull

/-- What happens when a program takes a step: where that leads, and whether it is answered `NULL`. -/
def ProgOp.exec (C : Collector σ) (t : World σ × List Addr) (op : ProgOp) :
    (World σ × List Addr) × Bool :=
  let r := (op.call C t).perform C t.1
  match op with
  | .alloc i .. => ((((ClientOp.setRoot i r.2).perform C r.1.cleared).1, t.2), decide (r.2 = 0))
  | .acquire .. => ((r.1.cleared, t.2 ++ [r.2]), decide (r.2 = 0))
  | .release n => ((r.1, t.2.set n 0), false)
  | .collectMinor | .collectMajor | .collectFull => ((r.1.cleared, t.2), false)
  | .store .. | .write .. | .setRoot .. => ((r.1, t.2), false)

/-- A step of a well-behaved program. It has to be one that the program may take, and what it is
    refused must cost no live object; what it does is up to the collector. -/
structure ProgOp.Behaves (C : Collector σ) (Spared : World σ → ClientOp → Prop)
    (rootSlots : List Nat) (t : ProgState × World σ × List Addr) (call : ProgOp × Bool)
    (t' : ProgState × World σ × List Addr) : Prop where
  sensible : call.1.Sensible C.rounded C.maxSize rootSlots t.1
  spared : Spared t.2.1 (call.1.call C t.2)
  happens : call.1.exec C t.2 = (t'.2, call.2)
  meant : t'.1 = t.1.answered call

/-! ### Calls that ask for nothing -/

/-- The write barrier asks for no memory. -/
def Collector.StoresQuietly (C : Collector σ) : Prop :=
  ∀ w owner loc v, (gcStoreRef C.algo w owner loc v).mem = w.mem ∧
    (gcStoreRef C.algo w owner loc v).losses = w.losses

variable [Inhabited σ] {M : Manager σ} {Spared : World σ → ClientOp → Prop} {w w' : World σ}
  {names : List Addr} {s : ProgState} {g g' : Graph} {tracked tracked' : List Addr}

/-- A call that asks for nothing is refused nothing. -/
theorem Manager.Sound.quiet_granted (hM : M.Sound) (hq : M.StoresQuietly) (h : M.Inv w)
    (hg : w.Granted) {op : ClientOp} (hl : op.Legal M.maxSize w.graph (M.tracked w))
    (hop : op.quiet = true) : (op.perform M.toCollector w).1.Granted := by
  cases op with
  | storeRef owner loc v =>
    obtain ⟨hmem, hlosses⟩ := hq w owner loc v
    simp only [ClientOp.perform, World.Granted, hmem, hlosses]
    exact hg
  | loadRef | get | writeBytes | setRoot => exact hg
  | release handle =>
    simp only [ClientOp.perform]
    rcases hl with rfl | hmem
    · simpa [gcHandleRelease] using hg
    · obtain ⟨k, -, -, heq⟩ := Manager.release_spec hM h hmem
      rw [heq]
      exact ⟨(w.mem.free_failed handle).trans hg.1, hg.2⟩
  | alloc | acquire | collectMinor | collectMajor | collectFull =>
    exact absurd hop Bool.false_ne_true

/-- No call changes the hooks of the client. -/
theorem Outcome.hooks {rounded : Nat → Nat} {op : ClientOp} {result : Addr}
    (h : Outcome rounded op g tracked result g' tracked') : g'.hooks = g.hooks := by
  rcases h with heff | ⟨-, -, keep, φ, hc⟩
  · cases op with
    | alloc desc size flags =>
      simp only [Effect] at heff
      split at heff
      · rw [heff.2.1]
      · obtain ⟨g₁, tracked₁, keep, φ, hc, ha⟩ := heff
        obtain ⟨objs, -, rfl⟩ := ha.graph
        exact hc.hooks
    | acquire obj flags =>
      simp only [Effect] at heff
      split at heff
      · rw [heff.2.1]
      · obtain ⟨-, -, -, runtime, rfl⟩ := heff
        rfl
    | release handle =>
      simp only [Effect] at heff
      split at heff
      · rw [heff.1]
      · obtain ⟨-, k, -, -, rfl⟩ := heff
        rfl
    | storeRef | writeBytes | setRoot => rw [heff.1]; rfl
    | loadRef | get => rw [heff.2.1]
    | collectMinor =>
      obtain ⟨keep, φ, hc⟩ := heff
      exact hc.hooks
    | collectMajor | collectFull =>
      obtain ⟨φ, hc⟩ := heff
      exact hc.hooks
  · exact hc.hooks

/-- What an answer may be: `NULL`, or a tracked object. -/
theorem Outcome.result_alloc {rounded : Nat → Nat} {desc : GcDescriptor} {size : Nat}
    {flags : BitVec 32} {result : Addr}
    (h : Outcome rounded (.alloc desc size flags) g tracked result g' tracked') :
    result = 0 ∨ result ∈ tracked' := by
  rcases h with heff | ⟨-, h0, -⟩
  · simp only [Effect] at heff
    split at heff
    · exact .inl heff.1
    · obtain ⟨g₁, tracked₁, keep, φ, -, ha⟩ := heff
      exact .inr (ha.perm.mem_iff.mpr List.mem_cons_self)
  · exact .inl h0

/-! ### A program sees what it means -/

/-- Where a path leads, and what is there. -/
theorem Manager.sees (hC : M.toCollector.Runs M.Inv) (h : M.Inv w)
    (r : M.toCollector.Holds s w names) {p : Path} {t : Nat} (ht : s.eval p = some t) :
    p.eval M.toCollector w names ∈ M.tracked w ∧
      ∃ x o, s.objs[t]? = some x ∧ w.graph.objs (p.eval M.toCollector w names) = some o ∧
        o.tag = t ∧ SameObj M.rounded w.graph.refTag x o := by
  obtain ⟨hp, htag⟩ := Refines.eval h.heap r (hC.read w) p
  rw [ht] at htag
  have h0 : p.eval M.toCollector w names ≠ 0 := by
    intro h0
    rw [h0, Graph.refTag_zero] at htag
    exact absurd htag (Option.some_ne_none t).symm
  have hmem := h.heap.mem_of_reachable (hp.resolve_left h0)
  obtain ⟨o, ho, -⟩ := h.heap.objs _ hmem
  obtain ⟨x, hx, hsame⟩ := r.objs _ (hp.resolve_left h0) o ho
  rw [w.graph.refTag_of_ne h0, Graph.tagAt_eq ho] at htag
  obtain rfl := Option.some.inj htag
  exact ⟨hmem, x, o, hx, ho, rfl, hsame⟩

/-- The object that a path leads to has the slots that the program knows of. -/
theorem SameObj.layout {rounded : Nat → Nat} {tag : Addr → Option Nat} {x : ProgObj} {o : GcHeader}
    (h : SameObj rounded tag x o) : o.layout = x.layout rounded := by
  rw [GcHeader.layout, h.desc, h.size, h.bytes]
  rfl

/-- The name of a handle is `NULL` once the handle is gone. -/
theorem Refines.releasable {rounded : Nat → Nat} {known : Set Addr}
    (r : Refines rounded s g tracked names known) (n : Nat) :
    names.getD n 0 = 0 ∨ names.getD n 0 ∈ g.handles.map GcHandle.addr := by
  by_cases hex : ∃ k ∈ s.handles, k.name = n
  · obtain ⟨k, hk, rfl⟩ := hex
    obtain ⟨k₀, hk₀, haddr, -⟩ := r.exists_handle hk
    exact .inr (haddr ▸ List.mem_map_of_mem hk₀)
  · exact .inl (r.gone n fun k hk hn => hex ⟨k, hk, hn⟩)

/-- What a program may do by its own lights, a well-behaved client may. -/
theorem Manager.sensible_legal (hC : M.toCollector.Runs M.Inv) (h : M.Inv w)
    (r : M.toCollector.Holds s w names) {op : ProgOp}
    (hop : op.Sensible M.rounded M.maxSize w.graph.hooks.rootSlots s) :
    (op.call M.toCollector (w, names)).Legal M.maxSize w.graph (M.tracked w) := by
  have htracked : ∀ {a}, a = 0 ∨ w.graph.Reachable a → a = 0 ∨ a ∈ M.tracked w :=
    fun ha => ha.imp_right h.heap.mem_of_reachable
  have hvalue := fun value => htracked (Refines.evalRef h.heap r (hC.read w) value).1
  cases op with
  | alloc i desc size flags => exact ⟨hop.1, hop.2.1⟩
  | store owner loc value =>
    obtain ⟨t, x, ht, hx, hloc⟩ := hop
    obtain ⟨hmem, x', o, hx', ho, -, hsame⟩ := Manager.sees hC h r ht
    obtain rfl := Option.some.inj (hx.symm.trans hx')
    refine ⟨hmem, fun o' ho' => ?_, hvalue value⟩
    obtain rfl := Option.some.inj (ho.symm.trans ho')
    rw [hsame.layout]
    exact hloc
  | write obj bytes =>
    obtain ⟨t, x, ht, hx, hkeep⟩ := hop
    obtain ⟨hmem, x', o, hx', ho, -, hsame⟩ := Manager.sees hC h r ht
    obtain rfl := Option.some.inj (hx.symm.trans hx')
    refine ⟨hmem, fun o' ho' p hp => ?_⟩
    obtain rfl := Option.some.inj (ho.symm.trans ho')
    have hslot : x.slots p ≠ none := by
      rw [← hsame.slots p, w.graph.refTag_of_ne hp]
      exact Option.some_ne_none _
    have hlay := hkeep p hslot
    rw [GcHeader.layout]
    simp only [hsame.desc, hsame.size]
    exact hlay
  | setRoot i value => exact ⟨hop, hvalue value⟩
  | acquire obj flags => exact hvalue (some obj)
  | release n => exact r.releasable n
  | collectMinor | collectMajor | collectFull => trivial

/-! ### Steps and runs of a well-behaved program -/

/-- What a step of a well-behaved program asks of the collector is in order, so the collector does it,
    and the program may go on. -/
theorem Manager.Sparing.behaves (hM : M.Sparing Spared) (hC : M.toCollector.Runs M.Inv)
    (hq : M.StoresQuietly) (h : M.Inv w) (hg : w.Granted) (r : M.toCollector.Holds s w names)
    {call : ProgOp × Bool} {s' : ProgState} {names' : List Addr}
    (hb : ProgOp.Behaves M.toCollector Spared w.graph.hooks.rootSlots (s, w, names) call
      (s', w', names')) :
    ProgOp.SparedStep M.toCollector Spared (w, names) call (w', names') ∧ w'.Granted ∧
      w'.graph.hooks = w.graph.hooks := by
  obtain ⟨op, null⟩ := call
  obtain ⟨hop, hs, hdo, -⟩ := hb
  have hl := Manager.sensible_legal hC h r hop
  -- of a call that asks for nothing
  have hquiet : ∀ {cop : ClientOp}, cop.Legal M.maxSize w.graph (M.tracked w) → cop.quiet = true →
      (cop.perform M.toCollector w).1 = w' → M.toCollector.Step w cop w' ∧ w'.Granted ∧
        w'.graph.hooks = w.graph.hooks := by
    rintro cop hcop hnone rfl
    have hgranted := hM.sound.quiet_granted hq h hg hcop hnone
    exact ⟨⟨hcop, rfl, hgranted⟩, hgranted,
      Outcome.hooks (.inl (hM.sound.quiet h hcop hnone).2)⟩
  -- of a collection
  have hcollect : ∀ {cop : ClientOp}, cop.Legal M.maxSize w.graph (M.tracked w) → Spared w cop →
      (cop.perform M.toCollector w).1.cleared = w' → M.toCollector.SparedStep Spared w cop w' ∧
        w'.Granted ∧ w'.graph.hooks = w.graph.hooks := by
    rintro cop hcop hspared rfl
    have hst : M.toCollector.SparedStep Spared w cop _ := ⟨hcop, hspared, rfl⟩
    exact ⟨hst, ⟨rfl, rfl, rfl⟩, (hM.step h hst).2.hooks⟩
  cases op with
  | alloc i desc size flags =>
    simp only [ProgOp.exec, Prod.mk.injEq] at hdo
    obtain ⟨⟨rfl, rfl⟩, hnull⟩ := hdo
    have hst : M.toCollector.SparedStep Spared w (.alloc desc size flags) _ := ⟨hl, hs, rfl⟩
    have ho := (hM.step h hst).2
    have hi : i ∈ ((ClientOp.alloc desc size flags).perform M.toCollector
        w).1.cleared.graph.hooks.rootSlots := by
      rw [ho.hooks]
      exact hop.2.2
    exact ⟨⟨hst, ⟨⟨hi, ho.result_alloc⟩, rfl, rfl, rfl, rfl⟩, rfl, hnull.symm⟩, ⟨rfl, rfl, rfl⟩,
      ho.hooks⟩
  | acquire obj flags =>
    simp only [ProgOp.exec, Prod.mk.injEq] at hdo
    obtain ⟨⟨hdo, rfl⟩, hnull⟩ := hdo
    obtain ⟨hst, hnext⟩ := hcollect hl hs hdo
    exact ⟨⟨hst, rfl, hnull.symm⟩, hnext⟩
  | collectMinor | collectMajor | collectFull =>
    simp only [ProgOp.exec, Prod.mk.injEq] at hdo
    obtain ⟨⟨hdo, rfl⟩, rfl⟩ := hdo
    obtain ⟨hst, hnext⟩ := hcollect hl hs hdo
    exact ⟨⟨hst, rfl, rfl⟩, hnext⟩
  | store | write | setRoot | release =>
    simp only [ProgOp.exec, Prod.mk.injEq] at hdo
    obtain ⟨⟨hdo, rfl⟩, rfl⟩ := hdo
    obtain ⟨hst, hnext⟩ := hquiet hl rfl hdo
    exact ⟨⟨⟨hst, rfl⟩, rfl⟩, hnext⟩

/-- A run of a well-behaved program is one of calls that are all in order, and its state is what its
    steps mean as they have been answered. -/
theorem Manager.Sparing.behaves_run (hM : M.Sparing Spared) (hC : M.toCollector.Runs M.Inv)
    (hq : M.StoresQuietly) {w₀ : World σ} (hw : M.toCollector.Starts w₀)
    {calls : List (ProgOp × Bool)} {t : ProgState × World σ × List Addr}
    (hrun : Run (ProgOp.Behaves M.toCollector Spared w₀.graph.hooks.rootSlots) (.init, w₀, [])
      calls t) :
    Run (ProgOp.SparedStep M.toCollector Spared) (w₀, []) calls t.2 ∧ M.Inv t.2.1 ∧
      t.2.1.Granted ∧ t.2.1.graph.hooks = w₀.graph.hooks ∧
      M.toCollector.Holds t.1 t.2.1 t.2.2 := by
  induction hrun with
  | nil =>
    have hg : w₀.Granted := hw.reaches.granted
    exact ⟨.nil _, hM.sound.start w₀ hw, hg, rfl, hC.start hw⟩
  | snoc _ hb ih =>
    obtain ⟨hrun, hinv, hg, hhooks, r⟩ := ih
    rw [← hhooks] at hb
    obtain ⟨hst, hg', hhooks'⟩ := hM.behaves hC hq hinv hg r hb
    obtain ⟨hinv', r'⟩ := hM.progStep hC hinv r hst
    rw [← hb.meant] at r'
    exact ⟨hrun.snoc hst, hinv', hg', hhooks'.trans hhooks, r'⟩

end

/-! ### The two algorithms -/

namespace Reclaimer

theorem storesQuietly : ∀ k : Reclaimer, k.enduring.StoresQuietly
  | genCopyMs => fun w owner loc v => by
      show (gcStoreRef gcGenCopyMsVtable w owner loc v).mem = _ ∧
        (gcStoreRef gcGenCopyMsVtable w owner loc v).losses = _
      simp only [gcStoreRef, gcGenCopyMsVtable, callHook, gcGenWriteBarrier]
      split_ifs <;> exact ⟨rfl, rfl⟩
  | marksweepStw => fun _ _ _ _ => ⟨rfl, rfl⟩

end Reclaimer

/-- A program that is well behaved by its own lights makes no call that is out of order, wherever the
    collector puts and moves its objects and whatever it is refused that costs no live object. Its
    memory is safe, and along each path it finds what its steps mean, or `NULL` where they mean that. -/
theorem wellBehaved_safe {k : Reclaimer} {w₀ w : World k.State} (hw : k.enduring.Starts w₀)
    {calls : List (ProgOp × Bool)} {s : ProgState} {names : List Addr}
    (hrun : Run (ProgOp.Behaves k.enduring.toCollector k.spared w₀.graph.hooks.rootSlots)
      (.init, w₀, []) calls (s, w, names)) :
    Run (ProgOp.SparedStep k.enduring.toCollector k.spared) (w₀, []) calls (w, names) ∧
    MemorySafe k.enduring.toCollector w ∧
    ∀ p : Path, (s.eval p = none → p.eval k.enduring.toCollector w names = 0) ∧
      ∀ t, s.eval p = some t → ∃ x o, s.objs[t]? = some x ∧
        w.graph.objs (p.eval k.enduring.toCollector w names) = some o ∧ o.tag = t ∧
        SameObj k.enduring.rounded w.graph.refTag x o := by
  obtain ⟨hcalls, hinv, -, -, r⟩ :=
    k.sparing.behaves_run k.enduring_runs k.storesQuietly hw hrun
  refine ⟨hcalls, k.memorySafe hinv, fun p => ⟨fun hnone => ?_, fun t ht => ?_⟩⟩
  · obtain ⟨-, htag⟩ := Refines.eval hinv.heap r (k.enduring_runs.read w) p
    by_contra h0
    rw [hnone, Graph.refTag_of_ne _ h0] at htag
    exact absurd htag (Option.some_ne_none _)
  · exact (Manager.sees k.enduring_runs hinv r ht).2

/-! ### A sample -/

/-- A program makes a cell and lets it refer to itself. -/
def genLoop : (World GenState × List Addr) × ProgState :=
  let made := ((ProgOp.alloc 0 cell 24 0).exec genCollector (genStart, [])).1
  (((ProgOp.store (.root 0) (.inline 16) (some (.root 0))).exec genCollector made).1,
    (ProgState.init.step (.alloc 0 cell 24 0)).step
      (.store (.root 0) (.inline 16) (some (.root 0))))

theorem genLoop_run :
    Run (ProgOp.Behaves genCollector genSpared genStart.graph.hooks.rootSlots)
      (.init, genStart, []) [(.alloc 0 cell 24 0, false),
        (.store (.root 0) (.inline 16) (some (.root 0)), false)] (genLoop.2, genLoop.1) := by
  have hmake : ProgOp.Behaves genCollector genSpared genStart.graph.hooks.rootSlots
      (.init, genStart, []) (.alloc 0 cell 24 0, false)
      (ProgState.init.step (.alloc 0 cell 24 0),
        ((ProgOp.alloc 0 cell 24 0).exec genCollector (genStart, [])).1) :=
    ⟨⟨cell_ok, by decide, by decide +kernel⟩,
      ⟨fun hc => absurd hc (by decide +kernel), .inr (by decide +kernel)⟩,
      Prod.ext rfl (by decide +kernel), rfl⟩
  exact ((Run.nil _).snoc hmake).snoc ⟨⟨0, _, rfl, rfl, by decide⟩, trivial, rfl, rfl⟩

/-- The cell is found twice as far along as well. -/
theorem wellBehaved_safe_sample : ∃ x o, genLoop.2.objs[0]? = some x ∧
    genLoop.1.1.graph.objs ((Path.slot (.slot (.root 0) (.inline 16)) (.inline 16)).eval genCollector
      genLoop.1.1 genLoop.1.2) = some o ∧ o.tag = 0 ∧
    SameObj alignedSize genLoop.1.1.graph.refTag x o :=
  ((@wellBehaved_safe .genCopyMs _ _ genStart_starts _ _ _ genLoop_run).2.2 _).2 0 rfl

end Xgc
