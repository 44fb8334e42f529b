import Xgc.Core.Runtime
import Xgc.Lib.Reach
import Mathlib.Data.Set.Function

/-! A managed heap, whatever algorithm manages it: a graph and the list of its tracked objects.

    `HeapInv` is what a well-behaved client and a collector keep together: references lead to
    tracked objects, the callbacks enumerate them, and the log accounts for every allocation so far.
    `Collected` is what a collection may do to such a heap: it keeps a closed set of objects, moves
    each of them as a whole, redirects all references, and ends the lives of the others. -/

namespace Xgc

open Lib (Reach lookup_eq_some)

/-! ### What callbacks have to enumerate -/

/-- The tracing callbacks of a descriptor visit every reference slot (those that hold `NULL` may be
    left out), and inline slots lie between the header and the end of the object. -/
structure GcDescriptor.Ok (d : GcDescriptor) : Prop where
  trace : ∀ (c : Contents), ∀ p ∈ d.layout c.size c.bytes, c.slots p ≠ 0 →
    ∃ trace, d.traceSlots = some trace ∧ p ∈ trace c
  range : ∀ traceRange, d.traceSlotsRange = some traceRange →
    ∀ (c : Contents), ∀ p ∈ d.layout c.size c.bytes, c.slots p ≠ 0 →
      ∃ off, p = .inline off ∧ ∀ b e, b ≤ off → off < e → p ∈ traceRange c b e
  inside : ∀ n bytes off, .inline off ∈ d.layout n bytes → sizeofHeader ≤ off ∧ off + 8 ≤ n
  outside : ∀ n bytes, .outline 0 ∉ d.layout n bytes

/-- `scan_roots` visits every root slot that holds a reference. -/
def GcVmHooks.Ok (h : GcVmHooks) : Prop :=
  ∀ (roots : Nat → Addr), ∀ i ∈ h.rootSlots, roots i ≠ 0 →
    ∃ scan, h.scanRoots = some scan ∧ i ∈ scan roots

/-- The reference slots of an object. -/
def GcHeader.layout (o : GcHeader) : List SlotLoc :=
  match o.desc with
  | some d => d.layout o.size o.bytes
  | none => []

/-- An object with a usable header, whose references are in its reference slots. -/
structure GcHeader.Ok (o : GcHeader) : Prop where
  desc : ∃ d, o.desc = some d ∧ d.Ok
  header : sizeofHeader ≤ o.size
  size_lt : o.size < 2 ^ 32
  slots : ∀ p, o.slots p ≠ 0 → p ∈ o.layout

/-- The same object with other references. -/
def GcHeader.withSlots (o : GcHeader) (s : SlotLoc → Addr) : GcHeader := { o with slots := s }

namespace GcHeader

variable {o : GcHeader} {s : SlotLoc → Addr}

@[simp] theorem withSlots_slots : (o.withSlots s).slots = s := rfl
@[simp] theorem withSlots_desc : (o.withSlots s).desc = o.desc := rfl
@[simp] theorem withSlots_size : (o.withSlots s).size = o.size := rfl
@[simp] theorem withSlots_bytes : (o.withSlots s).bytes = o.bytes := rfl
@[simp] theorem withSlots_tag : (o.withSlots s).tag = o.tag := rfl
@[simp] theorem withSlots_layout : (o.withSlots s).layout = o.layout := rfl
@[simp] theorem withSlots_self : o.withSlots o.slots = o := rfl
@[simp] theorem withSlots_withSlots {s' : SlotLoc → Addr} :
    (o.withSlots s).withSlots s' = o.withSlots s' := rfl

theorem Ok.withSlots (h : o.Ok) (hs : ∀ p, s p ≠ 0 → p ∈ o.layout) : (o.withSlots s).Ok :=
  ⟨h.desc, h.header, h.size_lt, hs⟩

theorem Ok.traced (h : o.Ok) {p : SlotLoc} (hp : o.slots p ≠ 0) : p ∈ o.tracedSlots := by
  obtain ⟨d, hd, hok⟩ := h.desc
  have hlay := h.slots p hp
  rw [layout, hd] at hlay
  obtain ⟨trace, htrace, hmem⟩ := hok.trace o.toContents p hlay hp
  simpa [tracedSlots, hd, htrace] using hmem

end GcHeader

/-- What is logged for the death of the object with tag `t`. -/
def deathsOf (history : List GcDescriptor) (t : Nat) : List Event :=
  match history[t]? with
  | some d => if d.finalize then [.finalize t, .release t] else [.release t]
  | none => [.release t]

theorem GcHeader.deathEvents_eq {o : GcHeader} {history : List GcDescriptor} {d : GcDescriptor}
    (hd : o.desc = some d) (h : history[o.tag]? = o.desc) :
    o.deathEvents = deathsOf history o.tag := by
  simp [deathEvents, hasFinalizer, deathsOf, h, hd]

theorem deathsOf_append {history : List GcDescriptor} {t : Nat} (h : t < history.length)
    (more : List GcDescriptor) : deathsOf (history ++ more) t = deathsOf history t := by
  simp [deathsOf, List.getElem?_append_left h]

theorem release_mem_deathsOf (history : List GcDescriptor) (t u : Nat) :
    Event.release u ∈ deathsOf history t ↔ u = t := by
  unfold deathsOf
  split
  · split <;> simp
  · simp

theorem finalize_mem_deathsOf (history : List GcDescriptor) (t u : Nat) :
    Event.finalize u ∈ deathsOf history t ↔
      u = t ∧ ∃ d, history[t]? = some d ∧ d.finalize = true := by
  unfold deathsOf
  cases history[t]? with
  | none => simp
  | some d => by_cases hf : d.finalize <;> simp [hf]

/-! ### Reachability -/

namespace Graph

/-- The references that root slots and handles hold. -/
def rootRefs (g : Graph) : Set Addr :=
  {a | a ≠ 0 ∧ ((∃ i, g.roots i = a) ∨ ∃ k ∈ g.handles, k.target = a)}

/-- The object at `a` refers to `b`. -/
def Edge (g : Graph) (a b : Addr) : Prop := b ≠ 0 ∧ ∃ p, g.slot a p = b

/-- The program can get at the object at `a`. -/
def Reachable (g : Graph) (a : Addr) : Prop := Reach g.rootRefs g.Edge a

theorem tagAt_eq {g : Graph} {a : Addr} {o : GcHeader} (h : g.objs a = some o) :
    g.tagAt a = o.tag := by
  simp [tagAt, h]

theorem sizeAt_eq {g : Graph} {a : Addr} {o : GcHeader} (h : g.objs a = some o) :
    g.sizeAt a = o.size := by
  simp [sizeAt, h]

/-- Rewriting an object in place leaves all tags. -/
theorem tagAt_modifyObj (g : Graph) (a b : Addr) {f : GcHeader → GcHeader}
    (hf : ∀ o, (f o).tag = o.tag) : (g.modifyObj a f).tagAt b = g.tagAt b := by
  by_cases hb : b = a
  · subst hb
    cases ho : g.objs b <;> simp [tagAt, ho, hf]
  · simp [tagAt, hb]

end Graph

/-! ### The invariant -/

/-- The log accounts for all allocations: each tag given out is that of one tracked object, or its
    death has been logged, once. -/
structure Lives (g : Graph) (tracked : List Addr) (dead : List Nat) : Prop where
  log : g.log = dead.flatMap (deathsOf g.history)
  once : dead.Nodup
  distinct : Set.InjOn g.tagAt {a | a ∈ tracked}
  nodup : tracked.Nodup
  disjoint : ∀ a ∈ tracked, g.tagAt a ∉ dead
  total : ∀ t, t < g.history.length ↔ t ∈ dead ∨ ∃ a ∈ tracked, g.tagAt a = t

/-- Lives do not depend on objects that are not tracked. -/
theorem Lives.congr {g g' : Graph} {tracked : List Addr} {dead : List Nat} 
    (hl : Lives g tracked dead) (hobjs : ∀ a ∈ tracked, g'.tagAt a = g.tagAt a)
    (hhist : g'.history = g.history)
    (hlog : g'.log = g.log) : Lives g' tracked dead where
  log := by rw [hlog, hhist]; exact hl.log
  once := hl.once
  distinct a ha b hb hab := by
    rw [hobjs a ha, hobjs b hb] at hab
    exact hl.distinct ha hb hab
  nodup := hl.nodup
  disjoint a ha := by rw [hobjs a ha]; exact hl.disjoint a ha
  total t := by
    rw [hhist, hl.total]
    refine or_congr_right ⟨?_, ?_⟩
    · rintro ⟨a, ha, rfl⟩
      exact ⟨a, ha, hobjs a ha⟩
    · rintro ⟨a, ha, rfl⟩
      exact ⟨a, ha, (hobjs a ha).symm⟩

namespace Lives

variable {g : Graph} {tracked : List Addr} {dead : List Nat}

theorem released_iff (hl : Lives g tracked dead) (t : Nat) :
    Event.release t ∈ g.log ↔ t < g.history.length ∧ ∀ a ∈ tracked, g.tagAt a ≠ t := by
  have hmem : Event.release t ∈ g.log ↔ t ∈ dead := by
    simp [hl.log, release_mem_deathsOf]
  rw [hmem, hl.total]
  constructor
  · exact fun ht => ⟨.inl ht, fun a ha he => hl.disjoint a ha (he ▸ ht)⟩
  · rintro ⟨ht | ⟨a, ha, hat⟩, hne⟩
    · exact ht
    · exact absurd hat (hne a ha)

theorem finalized_iff (hl : Lives g tracked dead) (t : Nat) :
    Event.finalize t ∈ g.log ↔
      Event.release t ∈ g.log ∧ ∃ d, g.history[t]? = some d ∧ d.finalize = true := by
  simp only [hl.log, List.mem_flatMap, finalize_mem_deathsOf, release_mem_deathsOf]
  constructor
  · rintro ⟨u, hu, rfl, hd⟩
    exact ⟨⟨t, hu, rfl⟩, hd⟩
  · rintro ⟨⟨u, hu, rfl⟩, hd⟩
    exact ⟨t, hu, rfl, hd⟩

theorem deathsOf_nodup (history : List GcDescriptor) (t : Nat) : (deathsOf history t).Nodup := by
  unfold deathsOf
  split
  · split <;> simp
  · simp

/-- Each death is logged once. -/
theorem deaths_nodup (history : List GcDescriptor) {ts : List Nat} (h : ts.Nodup) :
    (ts.flatMap (deathsOf history)).Nodup := by
  rw [List.nodup_flatMap]
  refine ⟨fun t _ => deathsOf_nodup _ t, h.imp fun {t u} htu => ?_⟩
  intro e ht hu
  cases e with
  | finalize v =>
    exact htu (((finalize_mem_deathsOf _ t v).mp ht).1.symm.trans
      ((finalize_mem_deathsOf _ u v).mp hu).1)
  | release v =>
    exact htu (((release_mem_deathsOf _ t v).mp ht).symm.trans
      ((release_mem_deathsOf _ u v).mp hu))

theorem log_nodup (hl : Lives g tracked dead) : g.log.Nodup := by
  rw [hl.log]
  exact deaths_nodup g.history hl.once

/-- The lives of some of the tracked objects may end. -/
theorem end_some (hl : Lives g tracked dead) {ds rest : List Addr} (htr : tracked = ds ++ rest)
    {g' : Graph} (htags : ∀ a ∈ rest, g'.tagAt a = g.tagAt a) (hhist : g'.history = g.history)
    (hlog : g'.log = g.log ++ ds.flatMap fun a => deathsOf g.history (g.tagAt a)) :
    Lives g' rest (dead ++ ds.map g.tagAt) := by
  subst htr
  have hds : ∀ a ∈ ds, a ∈ ds ++ rest := fun a ha => List.mem_append_left _ ha
  have hrest : ∀ a ∈ rest, a ∈ ds ++ rest := fun a ha => List.mem_append_right _ ha
  obtain ⟨hnodup, hnodup', hapart⟩ := List.nodup_append.mp hl.nodup
  refine ⟨?_, ?_, fun a ha b hb hab => ?_, hnodup', fun a ha hmem => ?_, fun t => ?_⟩
  · rw [hlog, hl.log, hhist, List.flatMap_append, List.flatMap_map]
  · refine List.nodup_append.mpr ⟨hl.once, hnodup.map_on fun a ha b hb =>
      hl.distinct (hds a ha) (hds b hb), ?_⟩
    rintro t ht u hu rfl
    obtain ⟨a, ha, rfl⟩ := List.mem_map.mp hu
    exact hl.disjoint a (hds a ha) ht
  · rw [htags a ha, htags b hb] at hab
    exact hl.distinct (hrest a ha) (hrest b hb) hab
  · rw [htags a ha] at hmem
    rcases List.mem_append.mp hmem with hmem | hmem
    · exact hl.disjoint a (hrest a ha) hmem
    · obtain ⟨b, hb, hba⟩ := List.mem_map.mp hmem
      exact hapart b hb a ha (hl.distinct (hds b hb) (hrest a ha) hba)
  · rw [hhist, hl.total, List.mem_append, List.mem_map, or_assoc]
    refine or_congr_right ⟨?_, ?_⟩
    · rintro ⟨a, ha, rfl⟩
      rcases List.mem_append.mp ha with ha | ha
      · exact .inl ⟨a, ha, rfl⟩
      · exact .inr ⟨a, ha, htags a ha⟩
    · rintro (⟨a, ha, rfl⟩ | ⟨a, ha, rfl⟩)
      · exact ⟨a, hds a ha, rfl⟩
      · exact ⟨a, hrest a ha, (htags a ha).symm⟩

end Lives

/-- A heap in order. -/
structure HeapInv (g : Graph) (tracked : List Addr) : Prop where
  nonNull : 0 ∉ tracked
  objs : ∀ a ∈ tracked, ∃ o, g.objs a = some o ∧ o.Ok ∧ g.history[o.tag]? = o.desc
  fields : ∀ a ∈ tracked, ∀ p, g.slot a p = 0 ∨ g.slot a p ∈ tracked
  roots : ∀ i, g.roots i = 0 ∨ (i ∈ g.hooks.rootSlots ∧ g.roots i ∈ tracked)
  handles : ∀ k ∈ g.handles, k.target ∈ tracked
  handleAddrs : (g.handles.map GcHandle.addr).Nodup
  hooks : g.hooks.Ok
  lives : ∃ dead, Lives g tracked dead

namespace HeapInv

variable {g g' : Graph} {tracked : List Addr}

theorem ne_zero (h : HeapInv g tracked) {a : Addr} (ha : a ∈ tracked) : a ≠ 0 :=
  fun h0 => h.nonNull (h0 ▸ ha)

theorem nodup (h : HeapInv g tracked) : tracked.Nodup := h.lives.choose_spec.nodup

theorem tag_inj (h : HeapInv g tracked) {a b : Addr} (ha : a ∈ tracked) (hb : b ∈ tracked)
    (he : g.tagAt a = g.tagAt b) : a = b :=
  h.lives.choose_spec.distinct ha hb he

theorem tag_lt (h : HeapInv g tracked) {a : Addr} (ha : a ∈ tracked) :
    g.tagAt a < g.history.length := by
  obtain ⟨dead, hl⟩ := h.lives
  exact (hl.total _).mpr (.inr ⟨a, ha, rfl⟩)

theorem target_eq (h : HeapInv g tracked) {k : GcHandle} (hk : k ∈ g.handles) :
    g.target k.addr = k.target := by
  have hfind : g.handles.find? (fun k' => k'.addr = k.addr) = some k :=
    (lookup_eq_some h.handleAddrs).mpr ⟨hk, rfl⟩
  simp [Graph.target, hfind]

/-- Whatever the program can get at is tracked. -/
theorem mem_of_reachable (h : HeapInv g tracked) {a : Addr} (ha : g.Reachable a) : a ∈ tracked := by
  refine ha.mem_of_closed (S := {a | a ∈ tracked}) ?_ ?_
  · rintro b ⟨h0, ⟨i, rfl⟩ | ⟨k, hk, rfl⟩⟩
    · exact ((h.roots i).resolve_left h0).2
    · exact h.handles k hk
  · rintro b c hb ⟨h0, p, rfl⟩
    exact (h.fields b hb p).resolve_left h0

/-- A tag has been released exactly when no tracked object has it. -/
theorem released_iff (h : HeapInv g tracked) (t : Nat) :
    Event.release t ∈ g.log ↔ t < g.history.length ∧ ∀ a ∈ tracked, g.tagAt a ≠ t :=
  h.lives.choose_spec.released_iff t

/-- The finalizer of a released object has been called, if it has one. -/
theorem finalized_iff (h : HeapInv g tracked) (t : Nat) :
    Event.finalize t ∈ g.log ↔
      Event.release t ∈ g.log ∧ ∃ d, g.history[t]? = some d ∧ d.finalize = true :=
  h.lives.choose_spec.finalized_iff t

/-- No event happens twice. -/
theorem log_nodup (h : HeapInv g tracked) : g.log.Nodup := h.lives.choose_spec.log_nodup

/-! ### Steps of the client -/

/-- The same tracked objects with other valid roots and handles. -/
theorem congr (h : HeapInv g tracked) (hobjs : ∀ a ∈ tracked, g'.objs a = g.objs a)
    (hhist : g'.history = g.history) (hlog : g'.log = g.log) (hhooks : g'.hooks = g.hooks)
    (hroots : ∀ i, g'.roots i = 0 ∨ (i ∈ g.hooks.rootSlots ∧ g'.roots i ∈ tracked))
    (htargets : ∀ k ∈ g'.handles, k.target ∈ tracked)
    (haddrs : (g'.handles.map GcHandle.addr).Nodup) : HeapInv g' tracked where
  nonNull := h.nonNull
  objs a ha := by
    rw [hobjs a ha, hhist]
    exact h.objs a ha
  fields a ha p := by
    rw [Graph.slot_congr (hobjs a ha)]
    exact h.fields a ha p
  roots i := by rw [hhooks]; exact hroots i
  handles := htargets
  handleAddrs := haddrs
  hooks := by rw [hhooks]; exact h.hooks
  lives := by
    obtain ⟨dead, hl⟩ := h.lives
    exact ⟨dead, hl.congr (fun a ha => by simp [Graph.tagAt, hobjs a ha]) hhist hlog⟩

/-- Rewriting an object in place. -/
theorem modifyObj (h : HeapInv g tracked) (a : Addr) {f : GcHeader → GcHeader}
    (hf : ∀ o, g.objs a = some o → a ∈ tracked → o.Ok → (f o).Ok ∧ (f o).tag = o.tag ∧
      (f o).desc = o.desc ∧ ∀ p, (f o).slots p = 0 ∨ (f o).slots p ∈ tracked) :
    HeapInv (g.modifyObj a f) tracked := by
  have hobj : ∀ b ∈ tracked, ∃ o, g.objs b = some o ∧ ∃ o', (g.modifyObj a f).objs b = some o' ∧
      o'.Ok ∧ o'.tag = o.tag ∧ o'.desc = o.desc ∧ g.history[o.tag]? = o.desc ∧
      ∀ p, o'.slots p = 0 ∨ o'.slots p ∈ tracked := by
    intro b hb
    obtain ⟨o, ho, hok, hh⟩ := h.objs b hb
    by_cases hba : b = a
    · subst hba
      obtain ⟨hok', htag, hdesc, hslots⟩ := hf o ho hb hok
      exact ⟨o, ho, f o, by simp [ho], hok', htag, hdesc, hh, hslots⟩
    · refine ⟨o, ho, o, by simp [hba, ho], hok, rfl, rfl, hh, fun p => ?_⟩
      rw [← Graph.slot_eq ho]
      exact h.fields b hb p
  have htag : ∀ b ∈ tracked, (g.modifyObj a f).tagAt b = g.tagAt b := by
    intro b hb
    obtain ⟨o, ho, o', ho', -, ht, -⟩ := hobj b hb
    rw [Graph.tagAt_eq ho, Graph.tagAt_eq ho', ht]
  refine ⟨h.nonNull, fun b hb => ?_, fun b hb p => ?_, h.roots, h.handles, h.handleAddrs,
    h.hooks, ?_⟩
  · obtain ⟨o, -, o', ho', hok, ht, hd, hh, -⟩ := hobj b hb
    refine ⟨o', ho', hok, ?_⟩
    rw [ht, hd]
    exact hh
  · obtain ⟨o, -, o', ho', -, -, -, -, hs⟩ := hobj b hb
    rw [Graph.slot_eq ho']
    exact hs p
  · obtain ⟨dead, hl⟩ := h.lives
    exact ⟨dead, hl.congr htag rfl rfl⟩

/-- Storing a valid reference in a reference slot of an object. -/
theorem writeField (h : HeapInv g tracked) {a : Addr} {p : SlotLoc} {v : Addr}
    (hp : ∀ o, g.objs a = some o → p ∈ o.layout) (hv : v = 0 ∨ v ∈ tracked) :
    HeapInv (g.write (.field a p) v) tracked := by
  refine h.modifyObj a fun o ho ha hok => ⟨hok.withSlots fun q hq => ?_, rfl, rfl, fun q => ?_⟩
  · by_cases hqp : q = p
    · exact hqp ▸ hp o ho
    · rw [Function.update_of_ne hqp] at hq
      exact hok.slots q hq
  · by_cases hqp : q = p
    · subst hqp
      simpa using hv
    · simp only [Function.update_of_ne hqp]
      rw [← Graph.slot_eq ho]
      exact h.fields a ha q

/-- Putting a valid reference into a root slot. -/
theorem writeRoot (h : HeapInv g tracked) {i : Nat} {v : Addr} (hi : i ∈ g.hooks.rootSlots)
    (hv : v = 0 ∨ v ∈ tracked) : HeapInv (g.write (.root i) v) tracked := by
  refine h.congr (fun a _ => rfl) rfl rfl rfl (fun j => ?_) h.handles h.handleAddrs
  by_cases hj : j = i
  · subst hj
    simpa [Graph.write, hi] using hv
  · simpa [Graph.write, hj] using h.roots j

/-- Another list of handles to tracked objects. -/
theorem setHandles (h : HeapInv g tracked) {handles : List GcHandle}
    (ht : ∀ k ∈ handles, k.target ∈ tracked) (hn : (handles.map GcHandle.addr).Nodup) :
    HeapInv { g with handles } tracked :=
  h.congr (fun _ _ => rfl) rfl rfl rfl h.roots ht hn

/-- A new object without references. -/
theorem addObject (h : HeapInv g tracked) {a : Addr} {d : GcDescriptor} {o : GcHeader}
    (ha : a ≠ 0) (hnew : a ∉ tracked) (hok : o.Ok) (hdesc : o.desc = some d)
    (htag : o.tag = g.history.length) (hslots : ∀ p, o.slots p = 0) :
    HeapInv { g.setObj a (some o) with history := g.history ++ [d] } (a :: tracked) := by
  set g₁ : Graph := { g.setObj a (some o) with history := g.history ++ [d] } with hg₁
  have hne : ∀ b ∈ tracked, b ≠ a := fun b hb he => hnew (he ▸ hb)
  have hself : g₁.objs a = some o := by simp [hg₁]
  have hother : ∀ b ∈ tracked, g₁.objs b = g.objs b := fun b hb => by simp [hg₁, hne b hb]
  have htself : g₁.tagAt a = g.history.length := (Graph.tagAt_eq hself).trans htag
  have htother : ∀ b ∈ tracked, g₁.tagAt b = g.tagAt b := fun b hb => by
    simp [Graph.tagAt, hother b hb]
  refine ⟨?_, ?_, ?_, ?_, ?_, h.handleAddrs, h.hooks, ?_⟩
  · rw [List.mem_cons]
    rintro (h0 | h0)
    · exact ha h0.symm
    · exact h.nonNull h0
  · intro b hb
    rcases List.mem_cons.mp hb with rfl | hb
    · exact ⟨o, hself, hok, by simp [hg₁, htag, hdesc]⟩
    · obtain ⟨o', ho', hok', hh⟩ := h.objs b hb
      have hlt := h.tag_lt hb
      rw [Graph.tagAt_eq ho'] at hlt
      refine ⟨o', (hother b hb).trans ho', hok', ?_⟩
      show (g.history ++ [d])[o'.tag]? = o'.desc
      rw [List.getElem?_append_left hlt, hh]
  · intro b hb p
    rcases List.mem_cons.mp hb with rfl | hb
    · rw [Graph.slot_eq hself]
      exact .inl (hslots p)
    · rw [Graph.slot_congr (hother b hb)]
      exact (h.fields b hb p).imp_right (List.mem_cons_of_mem _)
  · exact fun i => (h.roots i).imp_right fun hi => ⟨hi.1, List.mem_cons_of_mem _ hi.2⟩
  · exact fun k hk => List.mem_cons_of_mem _ (h.handles k hk)
  · obtain ⟨dead, hl⟩ := h.lives
    have hdead : ∀ t ∈ dead, t < g.history.length := fun t ht => (hl.total t).mpr (.inl ht)
    refine ⟨dead, ?_, hl.once, ?_, List.nodup_cons.mpr ⟨hnew, hl.nodup⟩, ?_, ?_⟩
    · show g.log = dead.flatMap (deathsOf (g.history ++ [d]))
      rw [hl.log]
      exact List.flatMap_congr fun t ht => (deathsOf_append (hdead t ht) [d]).symm
    · intro b (hb : b ∈ a :: tracked) c (hc : c ∈ a :: tracked) hbc
      rcases List.mem_cons.mp hb with hba | hb' <;> rcases List.mem_cons.mp hc with hca | hc'
      · rw [hba, hca]
      · rw [hba, htself, htother c hc'] at hbc
        exact absurd hbc (Nat.ne_of_gt (h.tag_lt hc'))
      · rw [hca, htself, htother b hb'] at hbc
        exact absurd hbc (Nat.ne_of_lt (h.tag_lt hb'))
      · rw [htother b hb', htother c hc'] at hbc
        exact hl.distinct hb' hc' hbc
    · intro b hb
      rcases List.mem_cons.mp hb with rfl | hb
      · rw [htself]
        exact fun ht => Nat.lt_irrefl _ (hdead _ ht)
      · rw [htother b hb]
        exact hl.disjoint b hb
    · intro t
      show t < (g.history ++ [d]).length ↔ _
      rw [List.length_append, List.length_singleton, Nat.lt_succ_iff_lt_or_eq, hl.total]
      constructor
      · rintro ((ht | ⟨b, hb, rfl⟩) | rfl)
        · exact .inl ht
        · exact .inr ⟨b, List.mem_cons_of_mem _ hb, htother b hb⟩
        · exact .inr ⟨a, List.mem_cons_self .., htself⟩
      · rintro (ht | ⟨b, hb, hbt⟩)
        · exact .inl (.inl ht)
        · rcases List.mem_cons.mp hb with rfl | hb
          · exact .inr (hbt.symm.trans htself)
          · exact .inl (.inr ⟨b, hb, (htother b hb).symm.trans hbt⟩)

end HeapInv

end Xgc
