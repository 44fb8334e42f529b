import Xgc.Heap.Managed

/-! What a collection does to a managed heap: `Collected g g' tracked tracked' keep φ` says that the
    objects in `keep` are kept, that `φ` says where each of them is afterwards, that every reference
    follows, and that the lives of all other tracked objects have ended, each once. -/

namespace Xgc

open Lib (Reach)

/-- An object with its references sent along `φ`. -/
def GcHeader.mapSlots (φ : Addr → Addr) (o : GcHeader) : GcHeader :=
  o.withSlots fun p => φ (o.slots p)

/-- A handle with its target sent along `φ`. -/
def GcHandle.mapTarget (φ : Addr → Addr) (k : GcHandle) : GcHandle := { k with target := φ k.target }

/-- All references of roots, handles and objects in `keep` lead to objects in `keep`. -/
structure Graph.Closed (g : Graph) (keep : Set Addr) : Prop where
  roots : ∀ i, g.roots i = 0 ∨ g.roots i ∈ keep
  handles : ∀ k ∈ g.handles, k.target ∈ keep
  fields : ∀ a ∈ keep, ∀ p, g.slot a p = 0 ∨ g.slot a p ∈ keep

/-- What a collection does. -/
structure Collected (g g' : Graph) (tracked tracked' : List Addr) (keep : Set Addr)
    (φ : Addr → Addr) : Prop where
  zero : φ 0 = 0
  ne_zero : ∀ a ∈ keep, φ a ≠ 0
  inj : Set.InjOn φ keep
  sub : ∀ a ∈ keep, a ∈ tracked
  closed : g.Closed keep
  image : ∀ b, b ∈ tracked' ↔ ∃ a ∈ keep, φ a = b
  nodup : tracked'.Nodup
  objs : ∀ a ∈ keep, ∀ o, g.objs a = some o → g'.objs (φ a) = some (o.mapSlots φ)
  roots : ∀ i, g'.roots i = φ (g.roots i)
  handles : g'.handles = g.handles.map (GcHandle.mapTarget φ)
  hooks : g'.hooks = g.hooks
  history : g'.history = g.history
  log : ∃ dead : List Nat, g'.log = g.log ++ dead.flatMap (deathsOf g.history) ∧ dead.Nodup ∧
    ∀ t, t ∈ dead ↔ ∃ a ∈ tracked, a ∉ keep ∧ g.tagAt a = t

/-- Everything reachable lies in a closed set. -/
theorem Graph.Closed.reachable {g : Graph} {keep : Set Addr} (h : g.Closed keep) {a : Addr}
    (ha : g.Reachable a) : a ∈ keep := by
  refine ha.mem_of_closed ?_ ?_
  · rintro b ⟨h0, ⟨i, rfl⟩ | ⟨k, hk, rfl⟩⟩
    · exact (h.roots i).resolve_left h0
    · exact h.handles k hk
  · rintro b c hb ⟨h0, p, rfl⟩
    exact (h.fields b hb p).resolve_left h0

/-- The reachable objects of a heap in order are a closed set. -/
theorem HeapInv.closed_reachable {g : Graph} {tracked : List Addr} (h : HeapInv g tracked) :
    g.Closed {a | g.Reachable a} where
  roots i := by
    by_cases h0 : g.roots i = 0
    · exact .inl h0
    · exact .inr (Reach.root ⟨h0, .inl ⟨i, rfl⟩⟩)
  handles k hk := Reach.root ⟨h.ne_zero (h.handles k hk), .inr ⟨k, hk, rfl⟩⟩
  fields a ha p := by
    by_cases h0 : g.slot a p = 0
    · exact .inl h0
    · exact .inr (Reach.step ha ⟨h0, p, rfl⟩)

/-- All tracked objects of a heap in order are a closed set. -/
theorem HeapInv.closed_tracked {g : Graph} {tracked : List Addr} (h : HeapInv g tracked) :
    g.Closed {a | a ∈ tracked} where
  roots i := (h.roots i).imp_right And.right
  handles := h.handles
  fields := h.fields

namespace Collected

variable {g g' g'' : Graph} {tracked tracked' tracked'' : List Addr} {keep keep' : Set Addr}
  {φ ψ : Addr → Addr}

theorem mem (c : Collected g g' tracked tracked' keep φ) {a : Addr} (ha : a ∈ keep) :
    φ a ∈ tracked' :=
  (c.image _).mpr ⟨a, ha, rfl⟩

theorem slot (h : HeapInv g tracked) (c : Collected g g' tracked tracked' keep φ) {a : Addr}
    (ha : a ∈ keep) (p : SlotLoc) : g'.slot (φ a) p = φ (g.slot a p) := by
  obtain ⟨o, ho, -⟩ := h.objs a (c.sub a ha)
  rw [Graph.slot_eq ho, Graph.slot_eq (c.objs a ha o ho)]
  rfl

theorem tagAt (h : HeapInv g tracked) (c : Collected g g' tracked tracked' keep φ) {a : Addr}
    (ha : a ∈ keep) : g'.tagAt (φ a) = g.tagAt a := by
  obtain ⟨o, ho, -⟩ := h.objs a (c.sub a ha)
  rw [Graph.tagAt_eq ho, Graph.tagAt_eq (c.objs a ha o ho)]
  rfl

/-- A collection that keeps everything where it is. -/
theorem refl (h : HeapInv g tracked) : Collected g g tracked tracked {a | a ∈ tracked} id where
  zero := rfl
  ne_zero _ ha := h.ne_zero ha
  inj _ _ _ _ he := he
  sub _ ha := ha
  closed := h.closed_tracked
  image b := by simp
  nodup := h.nodup
  objs _ _ _ ho := ho
  roots _ := rfl
  handles := (List.map_id _).symm
  hooks := rfl
  history := rfl
  log := ⟨[], by simp, List.nodup_nil, fun t => by
    simpa using fun a ha hna => absurd ha hna⟩

/-- A collection leaves a heap in order. -/
theorem heapInv (h : HeapInv g tracked) (c : Collected g g' tracked tracked' keep φ) :
    HeapInv g' tracked' where
  nonNull h0 := by
    obtain ⟨a, ha, ha0⟩ := (c.image 0).mp h0
    exact c.ne_zero a ha ha0
  objs b hb := by
    obtain ⟨a, ha, rfl⟩ := (c.image b).mp hb
    obtain ⟨o, ho, hok, hh⟩ := h.objs a (c.sub a ha)
    refine ⟨_, c.objs a ha o ho, hok.withSlots fun p hp => hok.slots p fun h0 => hp ?_, ?_⟩
    · rw [h0, c.zero]
    · rw [c.history]
      exact hh
  fields b hb p := by
    obtain ⟨a, ha, rfl⟩ := (c.image b).mp hb
    rw [c.slot h ha]
    rcases c.closed.fields a ha p with h0 | hk
    · exact .inl (by rw [h0, c.zero])
    · exact .inr (c.mem hk)
  roots i := by
    rw [c.roots, c.hooks]
    rcases c.closed.roots i with h0 | hk
    · exact .inl (by rw [h0, c.zero])
    · exact .inr ⟨((h.roots i).resolve_left (h.ne_zero (c.sub _ hk))).1, c.mem hk⟩
  handles k hk := by
    rw [c.handles] at hk
    obtain ⟨k', hk', rfl⟩ := List.mem_map.mp hk
    exact c.mem (c.closed.handles k' hk')
  handleAddrs := by
    rw [c.handles, List.map_map]
    exact h.handleAddrs
  hooks := by rw [c.hooks]; exact h.hooks
  lives := by
    obtain ⟨dead, hl⟩ := h.lives
    obtain ⟨dead', hlog, honce, hdead⟩ := c.log
    refine ⟨dead ++ dead', ?_, ?_, ?_, c.nodup, ?_, ?_⟩
    · rw [hlog, hl.log, c.history, List.flatMap_append]
    · refine List.nodup_append.mpr ⟨hl.once, honce, fun t ht u hu htu => ?_⟩
      obtain ⟨a, ha, -, rfl⟩ := (hdead u).mp hu
      exact hl.disjoint a ha (htu ▸ ht)
    · intro b hb d hd hbd
      obtain ⟨a, ha, rfl⟩ := (c.image b).mp hb
      obtain ⟨a', ha', rfl⟩ := (c.image d).mp hd
      rw [c.tagAt h ha, c.tagAt h ha'] at hbd
      rw [hl.distinct (c.sub a ha) (c.sub a' ha') hbd]
    · intro b hb hmem
      obtain ⟨a, ha, rfl⟩ := (c.image b).mp hb
      rw [c.tagAt h ha] at hmem
      rcases List.mem_append.mp hmem with ht | ht
      · exact hl.disjoint a (c.sub a ha) ht
      · obtain ⟨a', ha', hnot, htag⟩ := (hdead _).mp ht
        exact hnot (h.tag_inj ha' (c.sub a ha) htag ▸ ha)
    · intro t
      rw [c.history, hl.total, List.mem_append]
      constructor
      · rintro (ht | ⟨a, ha, rfl⟩)
        · exact .inl (.inl ht)
        · by_cases hk : a ∈ keep
          · exact .inr ⟨φ a, c.mem hk, c.tagAt h hk⟩
          · exact .inl (.inr ((hdead _).mpr ⟨a, ha, hk, rfl⟩))
      · rintro ((ht | ht) | ⟨b, hb, rfl⟩)
        · exact .inl ht
        · obtain ⟨a, ha, -, rfl⟩ := (hdead t).mp ht
          exact .inr ⟨a, ha, rfl⟩
        · obtain ⟨a, ha, rfl⟩ := (c.image b).mp hb
          exact .inr ⟨a, c.sub a ha, (c.tagAt h ha).symm⟩

/-- What is reachable afterwards is where the reachable objects have gone. -/
theorem reachable_iff (h : HeapInv g tracked) (c : Collected g g' tracked tracked' keep φ)
    (b : Addr) : g'.Reachable b ↔ ∃ a, g.Reachable a ∧ φ a = b := by
  constructor
  · intro hb
    induction hb with
    | root hroot =>
      obtain ⟨h0, ⟨i, rfl⟩ | ⟨k, hk, rfl⟩⟩ := hroot
      · rw [c.roots] at h0 ⊢
        have hne : g.roots i ≠ 0 := fun hz => h0 (by rw [hz, c.zero])
        exact ⟨_, .root ⟨hne, .inl ⟨i, rfl⟩⟩, rfl⟩
      · rw [c.handles] at hk
        obtain ⟨k', hk', rfl⟩ := List.mem_map.mp hk
        exact ⟨_, .root ⟨h.ne_zero (h.handles k' hk'), .inr ⟨k', hk', rfl⟩⟩, rfl⟩
    | step _ hedge ih =>
      obtain ⟨a, ha, rfl⟩ := ih
      obtain ⟨h0, p, rfl⟩ := hedge
      rw [c.slot h (c.closed.reachable ha)] at h0 ⊢
      have hne : g.slot a p ≠ 0 := fun hz => h0 (by rw [hz, c.zero])
      exact ⟨_, .step ha ⟨hne, p, rfl⟩, rfl⟩
  · rintro ⟨a, ha, rfl⟩
    refine ha.map φ ?_ ?_
    · rintro x ⟨h0, ⟨i, rfl⟩ | ⟨k, hk, rfl⟩⟩
      · exact ⟨c.ne_zero _ (c.closed.reachable (.root ⟨h0, .inl ⟨i, rfl⟩⟩)), .inl ⟨i, c.roots i⟩⟩
      · refine ⟨c.ne_zero _ (c.closed.handles k hk), .inr ⟨k.mapTarget φ, ?_, rfl⟩⟩
        rw [c.handles]
        exact List.mem_map_of_mem hk
    · rintro x y hx ⟨h0, p, rfl⟩
      have hk := c.closed.reachable hx
      exact ⟨c.ne_zero _ (c.closed.reachable (.step hx ⟨h0, p, rfl⟩)), p, c.slot h hk p⟩

/-- One collection after the other. -/
theorem trans (h : HeapInv g tracked) (c : Collected g g' tracked tracked' keep φ)
    (c' : Collected g' g'' tracked' tracked'' keep' ψ) :
    Collected g g'' tracked tracked'' {a | a ∈ keep ∧ φ a ∈ keep'} (ψ ∘ φ) where
  zero := by rw [Function.comp_apply, c.zero, c'.zero]
  ne_zero _ ha := c'.ne_zero _ ha.2
  inj _ ha _ hb he := c.inj ha.1 hb.1 (c'.inj ha.2 hb.2 he)
  sub _ ha := c.sub _ ha.1
  closed := by
    have hback : ∀ a, (a = 0 ∨ a ∈ keep) → (φ a = 0 ∨ φ a ∈ keep') →
        a = 0 ∨ (a ∈ keep ∧ φ a ∈ keep') := by
      rintro a (ha | ha) (hφ | hφ)
      · exact .inl ha
      · exact .inl ha
      · exact absurd hφ (c.ne_zero a ha)
      · exact .inr ⟨ha, hφ⟩
    refine ⟨fun i => ?_, fun k hk => ?_, fun a ha p => ?_⟩
    · have := c'.closed.roots i
      rw [c.roots] at this
      exact hback _ (c.closed.roots i) this
    · refine ⟨c.closed.handles k hk, c'.closed.handles (k.mapTarget φ) ?_⟩
      rw [c.handles]
      exact List.mem_map_of_mem hk
    · have := c'.closed.fields (φ a) ha.2 p
      rw [c.slot h ha.1] at this
      exact hback _ (c.closed.fields a ha.1 p) this
  image b := by
    rw [c'.image]
    constructor
    · rintro ⟨x, hx, rfl⟩
      obtain ⟨a, ha, rfl⟩ := (c.image x).mp (c'.sub x hx)
      exact ⟨a, ⟨ha, hx⟩, rfl⟩
    · rintro ⟨a, ha, rfl⟩
      exact ⟨φ a, ha.2, rfl⟩
  nodup := c'.nodup
  objs a ha o ho := c'.objs _ ha.2 _ (c.objs a ha.1 o ho)
  roots i := by rw [c'.roots, c.roots, Function.comp_apply]
  handles := by
    rw [c'.handles, c.handles, List.map_map]
    rfl
  hooks := c'.hooks.trans c.hooks
  history := c'.history.trans c.history
  log := by
    obtain ⟨dead, hlog, honce, hdead⟩ := c.log
    obtain ⟨dead', hlog', honce', hdead'⟩ := c'.log
    have hback : ∀ t, t ∈ dead' ↔ ∃ a ∈ keep, φ a ∉ keep' ∧ g.tagAt a = t := by
      intro t
      rw [hdead']
      constructor
      · rintro ⟨x, hx, hnot, rfl⟩
        obtain ⟨a, ha, rfl⟩ := (c.image x).mp hx
        exact ⟨a, ha, hnot, (c.tagAt h ha).symm⟩
      · rintro ⟨a, ha, hnot, rfl⟩
        exact ⟨φ a, c.mem ha, hnot, c.tagAt h ha⟩
    refine ⟨dead ++ dead', ?_, ?_, fun t => ?_⟩
    · rw [hlog', hlog, c.history, List.flatMap_append, List.append_assoc]
    · refine List.nodup_append.mpr ⟨honce, honce', fun t ht u hu htu => ?_⟩
      obtain ⟨a, ha, hnot, rfl⟩ := (hdead t).mp ht
      obtain ⟨a', ha', -, rfl⟩ := (hback u).mp hu
      exact hnot (h.tag_inj ha (c.sub a' ha') htu ▸ ha')
    · rw [List.mem_append, hdead, hback]
      constructor
      · rintro (⟨a, ha, hnot, rfl⟩ | ⟨a, ha, hnot, rfl⟩)
        · exact ⟨a, ha, fun hk => hnot hk.1, rfl⟩
        · exact ⟨a, c.sub a ha, fun hk => hnot hk.2, rfl⟩
      · rintro ⟨a, ha, hnot, rfl⟩
        by_cases hk : a ∈ keep
        · exact .inr ⟨a, hk, fun hk' => hnot ⟨hk, hk'⟩, rfl⟩
        · exact .inl ⟨a, ha, hk, rfl⟩

end Collected

end Xgc
