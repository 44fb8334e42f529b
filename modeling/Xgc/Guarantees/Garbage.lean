import Xgc.Guarantees.Tenants

/-! Garbage, as programs see it: what no path leads to is never found again, and the next full
    collection ends its life. -/

namespace Xgc

open Lib (Reach Run)

/-! ### What a program can get at -/

namespace ProgState

/-- The objects that root slots and handles lead to. -/
def rootRefs (s : ProgState) : Set Nat :=
  {t | (∃ i, s.roots i = some t) ∨ ∃ k ∈ s.handles, k.target = t}

/-- The object `t` refers to `u`. -/
def Edge (s : ProgState) (t u : Nat) : Prop :=
  ∃ x loc, s.objs[t]? = some x ∧ x.slots loc = some u

/-- Some path leads to the object. -/
def Reachable (s : ProgState) (t : Nat) : Prop := Reach s.rootRefs s.Edge t

variable {s s' : ProgState}

/-- What a path leads to is reachable. -/
theorem eval_reachable : ∀ (p : Path) {t : Nat}, s.eval p = some t → s.Reachable t
  | .root i, _, h => .root (.inl ⟨i, h⟩)
  | .handle n, _, h => by
      obtain ⟨k, hk, rfl⟩ := Option.map_eq_some_iff.mp h
      exact .root (.inr ⟨k, List.mem_of_find?_eq_some hk, rfl⟩)
  | .slot p loc, _, h => by
      obtain ⟨u, hu, hx⟩ := Option.bind_eq_some_iff.mp h
      obtain ⟨x, hx, hslot⟩ := Option.bind_eq_some_iff.mp hx
      exact .step (eval_reachable p hu) ⟨x, loc, hx, hslot⟩

theorem evalRef_reachable {p : Option Path} {t : Nat} (h : p.bind s.eval = some t) :
    s.Reachable t := by
  obtain ⟨p, -, hp⟩ := Option.bind_eq_some_iff.mp h
  exact eval_reachable p hp

/-- The references of `s'` are those of `s`, or lead to what is reachable in `s` or new. -/
structure Grows (s s' : ProgState) : Prop where
  roots : ∀ i t, s'.roots i = some t → s.Reachable t ∨ s.objs.length ≤ t
  handles : ∀ k ∈ s'.handles, s.Reachable k.target
  edges : ∀ t u, s'.Edge t u → s.Edge t u ∨ s.Reachable u

/-- Then nothing else becomes reachable. -/
theorem Grows.reachable (h : s.Grows s') {t : Nat} (ht : s'.Reachable t) :
    s.Reachable t ∨ s.objs.length ≤ t := by
  refine Reach.mem_of_closed (S := {t | s.Reachable t ∨ s.objs.length ≤ t}) ?_ ?_ ht
  · rintro u (⟨i, hi⟩ | ⟨k, hk, rfl⟩)
    · exact h.roots i u hi
    · exact .inl (h.handles k hk)
  · rintro u v hu huv
    rcases h.edges u v huv with hold | hv
    · rcases hu with hu | hu
      · exact .inl (.step hu hold)
      · obtain ⟨x, loc, hx, -⟩ := hold
        rw [List.getElem?_eq_none hu] at hx
        exact absurd hx (Option.some_ne_none _).symm
    · exact .inl hv

/-- Changing an object adds no references but those to reachable objects. -/
theorem edge_modify {t : Nat} {F : ProgObj → ProgObj}
    (hF : ∀ x loc u, (F x).slots loc = some u → x.slots loc = some u ∨ s.Reachable u) {a b : Nat}
    (h : (s.modify t F).Edge a b) : s.Edge a b ∨ s.Reachable b := by
  obtain ⟨y, loc, hy, hslot⟩ := h
  rw [s.modify_objs] at hy
  obtain ⟨x, hx, rfl⟩ := Option.map_eq_some_iff.mp hy
  split at hslot
  · exact (hF x loc b hslot).imp_left fun hold => ⟨x, loc, hx, hold⟩
  · exact .inl ⟨x, loc, hx, hslot⟩

theorem Grows.refl (s : ProgState) : s.Grows s where
  roots i _ h := .inl (.root (.inl ⟨i, h⟩))
  handles k hk := .root (.inr ⟨k, hk, rfl⟩)
  edges _ _ h := .inl h

theorem Grows.modify (s : ProgState) (t : Nat) {F : ProgObj → ProgObj}
    (hF : ∀ x loc u, (F x).slots loc = some u → x.slots loc = some u ∨ s.Reachable u) :
    s.Grows (s.modify t F) where
  roots := (Grows.refl s).roots
  handles := (Grows.refl s).handles
  edges _ _ h := edge_modify hF h

theorem Grows.setRoot (s : ProgState) (i : Nat) {v : Option Nat}
    (hv : ∀ t, v = some t → s.Reachable t ∨ s.objs.length ≤ t) : s.Grows (s.setRoot i v) where
  roots j t h := by
    simp only [ProgState.setRoot, Function.update_apply] at h
    split at h
    · exact hv t h
    · exact (Grows.refl s).roots j t h
  handles := (Grows.refl s).handles
  edges _ _ h := .inl h

/-- A step of a program reaches only what has been reachable before, and new objects. -/
theorem grows_step (s : ProgState) (op : ProgOp) : s.Grows (s.step op) := by
  cases op with
  | alloc i desc size flags =>
    simp only [step]
    split
    · exact .setRoot s i fun t ht => absurd ht (Option.some_ne_none _).symm
    · have hset := Grows.setRoot s i (v := some s.objs.length)
        fun t ht => .inr (Option.some.inj ht).le
      refine ⟨hset.roots, hset.handles, fun t u hedge => ?_⟩
      obtain ⟨x, loc, hx, hslot⟩ := hedge
      left
      change (s.objs ++ [_])[t]? = some x at hx
      rcases Nat.lt_trichotomy t s.objs.length with hlt | rfl | hgt
      · rw [List.getElem?_append_left hlt] at hx
        exact ⟨x, loc, hx, hslot⟩
      · rw [List.getElem?_concat_length] at hx
        obtain rfl := Option.some.inj hx
        exact absurd hslot (Option.some_ne_none _).symm
      · rw [List.getElem?_eq_none (by rw [List.length_append]; exact hgt)] at hx
        exact absurd hx (Option.some_ne_none _).symm
  | store owner loc value =>
    simp only [step]
    split
    · refine .modify s _ fun x p u hu => ?_
      simp only [Function.update_apply] at hu
      split at hu
      · exact .inr (evalRef_reachable hu)
      · exact .inl hu
    · exact .refl s
  | write obj bytes =>
    simp only [step]
    split
    · exact .modify s _ fun x p u hu => .inl hu
    · exact .refl s
  | setRoot i value => exact .setRoot s i fun t ht => .inl (evalRef_reachable ht)
  | acquire obj flags =>
    simp only [step]
    split
    · next t ht =>
      have hm := Grows.modify s t (F := fun x => { x with flags := x.flags ||| objectFlagPinned })
        fun x p u hu => .inl hu
      refine ⟨hm.roots, fun k hk => ?_, hm.edges⟩
      rcases List.mem_cons.mp hk with rfl | hk
      · exact eval_reachable obj ht
      · exact hm.handles k hk
    · exact ⟨(Grows.refl s).roots, (Grows.refl s).handles, (Grows.refl s).edges⟩
  | release n =>
    simp only [step]
    split
    · next k hk =>
      have hm := Grows.modify s k.target
        (F := fun x => { x with flags := x.flags &&& ~~~objectFlagPinned }) fun x p u hu => .inl hu
      exact ⟨hm.roots, fun k' hk' => hm.handles k' (List.mem_of_mem_eraseP hk'), hm.edges⟩
    · exact .refl s
  | collectMinor | collectMajor | collectFull => exact .refl s

/-- A step forgets no object. -/
theorem length_step (s : ProgState) (op : ProgOp) : s.objs.length ≤ (s.step op).objs.length := by
  have hmodify : ∀ {t F}, (s.modify t F).objs.length = s.objs.length := List.length_modify ..
  cases op with
  | alloc i desc size flags =>
    simp only [step]
    split
    · exact le_refl _
    · show s.objs.length ≤ (s.objs ++ [_]).length
      rw [List.length_append]
      exact Nat.le_add_right _ _
  | store owner loc value | write obj bytes =>
    simp only [step]
    split
    · exact hmodify.ge
    · exact le_refl _
  | acquire obj flags =>
    simp only [step]
    split
    · exact hmodify.ge
    · exact le_refl _
  | release n =>
    simp only [step]
    split
    · exact hmodify.ge
    · exact le_refl _
  | setRoot | collectMinor | collectMajor | collectFull => exact le_refl _

end ProgState

/-- The heap and the program mean the same by reachable. -/
theorem Refines.reachable_iff {rounded : Nat → Nat} {s : ProgState} {g : Graph}
    {tracked names : List Addr} (h : HeapInv g tracked)
    (r : Refines rounded s g tracked names {a | g.Reachable a}) (t : Nat) :
    s.Reachable t ↔ ∃ a, g.Reachable a ∧ g.tagAt a = t := by
  constructor
  · intro ht
    induction ht with
    | root hroot =>
      rcases hroot with ⟨i, hi⟩ | ⟨k, hk, rfl⟩
      · rw [← r.roots i] at hi
        obtain ⟨h0, htag⟩ := Graph.refTag_eq_some.mp hi
        exact ⟨_, .root ⟨h0, .inl ⟨i, rfl⟩⟩, htag⟩
      · obtain ⟨k₀, hk₀, -, htag⟩ := r.exists_handle hk
        exact ⟨_, r.closed.handles k₀ hk₀, htag⟩
    | step _ hedge ih =>
      obtain ⟨a, ha, rfl⟩ := ih
      obtain ⟨x, loc, hx, hslot⟩ := hedge
      obtain ⟨o, ho, -⟩ := h.objs a (r.sub a ha)
      obtain ⟨y, hy, hsame⟩ := r.objs a ha o ho
      rw [Graph.tagAt_eq ho, hy] at hx
      obtain rfl := Option.some.inj hx
      rw [← hsame.slots loc, ← Graph.slot_eq ho] at hslot
      obtain ⟨h0, htag⟩ := Graph.refTag_eq_some.mp hslot
      exact ⟨_, .step ha ⟨h0, loc, rfl⟩, htag⟩
  · rintro ⟨a, ha, rfl⟩
    induction ha with
    | root hroot =>
      obtain ⟨h0, ⟨i, rfl⟩ | ⟨k, hk, rfl⟩⟩ := hroot
      · exact .root (.inl ⟨i, (r.roots i).symm.trans (Graph.refTag_of_ne _ h0)⟩)
      · have hmem := List.mem_map_of_mem
          (f := fun k : GcHandle => (k.addr, g.tagAt k.target, k.flags)) hk
        rw [r.handles] at hmem
        obtain ⟨k', hk', he⟩ := List.mem_map.mp hmem
        simp only [Prod.mk.injEq] at he
        exact .root (.inr ⟨k', hk', he.2.1⟩)
    | step hx hedge ih =>
      obtain ⟨h0, loc, rfl⟩ := hedge
      obtain ⟨o, ho, -⟩ := h.objs _ (r.sub _ hx)
      obtain ⟨y, hy, hsame⟩ := r.objs _ hx o ho
      rw [Graph.tagAt_eq ho] at ih
      refine .step ih ⟨y, loc, hy, ?_⟩
      rw [← hsame.slots loc, ← Graph.slot_eq ho]
      exact Graph.refTag_of_ne _ h0

/-! ### Runs -/

section

variable {σ : Type} [Inhabited σ] {C : Collector σ} {Inv : World σ → Prop} {w w' : World σ}
  {names names' : List Addr}

/-- What has been logged stays logged. -/
theorem Effect.log_mem {rounded : Nat → Nat} {op : ClientOp} {g g' : Graph}
    {tracked tracked' : List Addr} {result : Addr}
    (h : Effect rounded op g tracked result g' tracked') {e : Event} (he : e ∈ g.log) :
    e ∈ g'.log := by
  have hcol : ∀ {g₁ : Graph} {tracked₁ keep φ}, Collected g g₁ tracked tracked₁ keep φ →
      e ∈ g₁.log := by
    intro g₁ tracked₁ keep φ hc
    obtain ⟨dead, hlog, -⟩ := hc.log
    rw [hlog]
    exact List.mem_append_left _ he
  cases op with
  | alloc desc size flags =>
    simp only [Effect] at h
    split at h
    · obtain ⟨-, rfl, -⟩ := h
      exact he
    · obtain ⟨g₁, tracked₁, keep, φ, hc, ha⟩ := h
      obtain ⟨objs, -, rfl⟩ := ha.graph
      have hlog : e ∈ g₁.log := hcol hc
      exact hlog
  | storeRef owner loc v =>
    obtain ⟨rfl, -⟩ := h
    rwa [Graph.write_log]
  | setRoot i v =>
    obtain ⟨rfl, -⟩ := h
    rwa [Graph.write_log]
  | writeBytes obj bytes =>
    obtain ⟨rfl, -⟩ := h
    exact he
  | loadRef place =>
    obtain ⟨-, rfl, -⟩ := h
    exact he
  | get handle =>
    obtain ⟨-, rfl, -⟩ := h
    exact he
  | acquire obj flags =>
    simp only [Effect] at h
    split at h
    · obtain ⟨-, rfl, -⟩ := h
      exact he
    · obtain ⟨-, -, -, runtime, rfl⟩ := h
      exact he
  | release handle =>
    simp only [Effect] at h
    split at h
    · obtain ⟨rfl, -⟩ := h
      exact he
    · obtain ⟨-, k, -, -, rfl⟩ := h
      exact he
  | collectMinor =>
    obtain ⟨keep, φ, hc⟩ := h
    exact hcol hc
  | collectMajor | collectFull =>
    obtain ⟨φ, hc⟩ := h
    exact hcol hc

theorem Collector.Runs.log_mem (hC : C.Runs Inv) (h : Inv w) {op : ProgOp}
    (hst : ProgOp.Step C (w, names) op (w', names')) {e : Event} (he : e ∈ w.graph.log) :
    e ∈ w'.graph.log := by
  have hcall : ∀ {u u' : World σ} {call : ClientOp}, Inv u → C.Step u call u' →
      e ∈ u.graph.log → Inv u' ∧ e ∈ u'.graph.log := by
    intro u u' call hu hcall he
    obtain ⟨hu', heff⟩ := hC.lawful.step _ _ _ hu hcall
    exact ⟨hu', heff.log_mem he⟩
  cases op with
  | alloc i desc size flags =>
    obtain ⟨halloc, hset, -⟩ := hst
    obtain ⟨h₁, he₁⟩ := hcall h halloc he
    exact (hcall h₁ hset he₁).2
  | store | write | setRoot | acquire | release | collectMinor | collectMajor | collectFull =>
    exact (hcall h hst.1 he).2

/-- After a major or full collection only what is reachable is tracked. -/
theorem Collector.Runs.collected_tracked (hC : C.Runs Inv) (h : Inv w) {op : ProgOp}
    (hop : op = .collectMajor ∨ op = .collectFull)
    (hst : ProgOp.Step C (w, names) op (w', names')) {a : Addr} (ha : a ∈ C.tracked w') :
    w'.graph.Reachable a := by
  have hreach : ∀ {φ}, Collected w.graph w'.graph (C.tracked w) (C.tracked w')
      {a | w.graph.Reachable a} φ → w'.graph.Reachable a := fun hc =>
    (hc.reachable_iff (hC.lawful.heap w h) a).mpr ((hc.image a).mp ha)
  rcases hop with rfl | rfl
  · obtain ⟨-, φ, hc⟩ := hC.lawful.step _ _ _ h hst.1
    exact hreach hc
  · obtain ⟨-, φ, hc⟩ := hC.lawful.step _ _ _ h hst.1
    exact hreach hc

/-- Garbage stays garbage, and once a major or full collection has been made it has been released. -/
theorem Collector.Runs.garbage (hC : C.Runs Inv) (h : Inv w) {s : ProgState} (r : C.Holds s w names)
    {t : Nat} (ht : t < w.graph.history.length) (hdead : ¬ s.Reachable t) {ops : List ProgOp}
    (hrun : Run (ProgOp.Step C) (w, names) ops (w', names')) :
    Inv w' ∧ ∃ s', C.Holds s' w' names' ∧ ¬ s'.Reachable t ∧ t < w'.graph.history.length ∧
      ((.collectMajor ∈ ops ∨ .collectFull ∈ ops) → Event.release t ∈ w'.graph.log) := by
  generalize he : (w', names') = u' at hrun
  induction hrun generalizing w' names' with
  | nil =>
    obtain ⟨rfl, rfl⟩ := Prod.mk.inj he
    refine ⟨h, s, r, hdead, ht, ?_⟩
    rintro (hm | hm) <;> exact absurd hm List.not_mem_nil
  | @snoc v _ ops op _ hst ih =>
    subst he
    obtain ⟨v, vnames⟩ := v
    obtain ⟨hv, s', r', hdead', hlt, hreleased⟩ := ih rfl
    obtain ⟨hw', r''⟩ := hC.step hv r' hst
    have hlen : s'.objs.length = v.graph.history.length := by
      rw [Refines.history r', List.length_map]
    have hdead'' : ¬ (s'.step op).Reachable t := fun hr =>
      ((ProgState.grows_step s' op).reachable hr).elim hdead' fun hge => by omega
    have hlt' : t < w'.graph.history.length := by
      have hmono := s'.length_step op
      rw [Refines.history r'', List.length_map]
      omega
    refine ⟨hw', _, r'', hdead'', hlt', fun hmem => ?_⟩
    by_cases hop : op = .collectMajor ∨ op = .collectFull
    · -- what is tracked now is reachable, so it is not the object `t`
      refine ((hC.lawful.heap w' hw').released_iff t).mpr ⟨hlt', fun a ha he => hdead'' ?_⟩
      have hreach := hC.collected_tracked hv hop hst ha
      exact (Refines.reachable_iff (hC.lawful.heap w' hw') r'' t).mpr ⟨a, hreach, he⟩
    · refine hC.log_mem hv hst (hreleased ?_)
      have hbefore : ∀ c, c = ProgOp.collectMajor ∨ c = ProgOp.collectFull → c ∈ ops ++ [op] →
          c ∈ ops := fun c hc hm => by
        rcases List.mem_append.mp hm with hm | hm
        · exact hm
        · exact absurd (List.mem_singleton.mp hm ▸ hc) hop
      exact hmem.imp (hbefore _ (.inl rfl)) (hbefore _ (.inr rfl))

end

section

variable {k : Reclaimer} {w₀ w w' : World k.State} {names names' : List Addr} {ops ops' : List ProgOp}

/-- What a program cannot get at any more it never gets at again, and the next major or full collection
    releases it, finalized if it has a finalizer, each once. -/
theorem garbage_forever (hw₀ : k.manager.Starts w₀)
    (hrun : Run (ProgOp.Step k.manager.toCollector) (w₀, []) ops (w, names))
    (hrun' : Run (ProgOp.Step k.manager.toCollector) (w, names) ops' (w', names')) {t : Nat}
    (ht : t < w.graph.history.length) (hdead : ∀ a, w.graph.Reachable a → w.graph.tagAt a ≠ t) :
    (∀ a, w'.graph.Reachable a → w'.graph.tagAt a ≠ t) ∧
    ((.collectMajor ∈ ops' ∨ .collectFull ∈ ops') → w'.graph.log.count (.release t) = 1 ∧
      ∀ d, w'.graph.history[t]? = some d →
        w'.graph.log.count (.finalize t) = if d.finalize then 1 else 0) := by
  have hC := k.tenant.runs
  obtain ⟨h, r⟩ := hC.run hw₀ hrun
  have hnot : ¬ ProgState.Reachable (ops.foldl ProgState.step .init) t := fun hr => by
    obtain ⟨a, ha, htag⟩ := (Refines.reachable_iff h.heap r t).mp hr
    exact hdead a ha htag
  obtain ⟨h', s', r', hnot', -, hreleased⟩ := hC.garbage h r ht hnot hrun'
  refine ⟨fun a ha htag => hnot' ((Refines.reachable_iff h'.heap r' t).mpr ⟨a, ha, htag⟩),
    fun hmem => ?_⟩
  have hlog := hreleased hmem
  refine ⟨List.count_eq_one_of_mem h'.heap.log_nodup hlog, fun d hd => ?_⟩
  have hfin := h'.heap.finalized_iff t
  split
  · next hf => exact List.count_eq_one_of_mem h'.heap.log_nodup (hfin.mpr ⟨hlog, d, hd, hf⟩)
  · next hf =>
    refine List.count_eq_zero.mpr fun hmem => hf ?_
    obtain ⟨-, d', hd', hf'⟩ := hfin.mp hmem
    exact Option.some.inj (hd'.symm.trans hd) ▸ hf'

end

/-- Two cells in the same root slot, one after the other. -/
theorem genSample_run : Run (ProgOp.Step genCollector) (genStart, [])
    [.alloc 0 cell 24 0, .alloc 0 cell 24 0] (genSample, []) :=
  ((Run.nil _).snoc (.rootCell (by decide) (by decide +kernel) (by decide +kernel)
    (by decide +kernel))).snoc (.rootCell (by decide) (by decide +kernel) (by decide +kernel)
    (by decide +kernel))

/-- The first cell of `genSample` is garbage. -/
theorem genSample_dead (a : Addr) (ha : genSample.graph.Reachable a) :
    genSample.graph.tagAt a ≠ 0 := by
  intro htag
  obtain ⟨h, r⟩ := genCollector_runs.run genStart_starts genSample_run
  have hr := (Refines.reachable_iff h.heap r 0).mpr ⟨a, ha, htag⟩
  have hone : (0 : Nat) ∈ ({1} : Set Nat) := by
    refine Reach.mem_of_closed ?_ ?_ hr
    · rintro t (⟨i, hi⟩ | ⟨k, hk, -⟩)
      · by_cases h0 : i = 0
        · subst h0
          exact (Option.some.inj hi).symm
        · simp [ProgState.step, ProgState.setRoot, ProgState.push, ProgState.init, sizeofHeader,
            Function.update_of_ne h0] at hi
      · exact absurd hk List.not_mem_nil
    · rintro t u - ⟨x, loc, hx, hslot⟩
      have hmem := List.mem_of_getElem? hx
      simp only [List.foldl_cons, List.foldl_nil, ProgState.step, ProgState.setRoot, ProgState.push,
        ProgState.init, sizeofHeader, Nat.reduceLT, if_false, List.nil_append, List.mem_append,
        List.mem_singleton, or_self] at hmem
      subst hmem
      exact absurd hslot (Option.some_ne_none _).symm
  exact absurd hone (by decide)

theorem garbage_forever_sample :
    (gcCollectFull gcGenCopyMsVtable genSample).graph.log.count (.finalize 0) = 1 := by
  have hfull : Run (ProgOp.Step genCollector) (genSample, []) [.collectFull]
      (gcCollectFull gcGenCopyMsVtable genSample, []) := .single (.collectFull (by decide +kernel))
  have hdone := (@garbage_forever .genCopyMs genStart _ _ _ _ _ _ genStart_starts genSample_run hfull
    0 (by decide +kernel) genSample_dead).2 (.inr (List.mem_singleton.mpr rfl))
  obtain ⟨d, hd, hf⟩ : ∃ d, (gcCollectFull gcGenCopyMsVtable genSample).graph.history[0]? = some d ∧
      d.finalize = true := ⟨_, rfl, by decide +kernel⟩
  exact (hdone.2 d hd).trans (if_pos hf)

end Xgc
