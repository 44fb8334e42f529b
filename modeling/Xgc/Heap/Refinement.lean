import Xgc.Heap.Manager
import Xgc.Heap.Program

/-! Each call of a lawful collector refines a step of the program: the heap goes on holding the
    objects that the program can get at, wherever the collector has put them. -/

namespace Xgc

open Lib (Run)

variable {rounded : Nat → Nat} {s : ProgState} {g g' : Graph} {tracked tracked' names : List Addr}
  {known keep : Set Addr} {φ : Addr → Addr}

/-! ### Collections -/

/-- A reference that has followed its object leads to the same object. -/
theorem Collected.refTag (h : HeapInv g tracked) (c : Collected g g' tracked tracked' keep φ)
    {v : Addr} (hv : v = 0 ∨ v ∈ keep) : g'.refTag (φ v) = g.refTag v := by
  rcases hv with rfl | hv
  · rw [c.zero, Graph.refTag_zero, Graph.refTag_zero]
  · rw [g'.refTag_of_ne (c.ne_zero v hv), g.refTag_of_ne (h.ne_zero (c.sub v hv)), c.tagAt h hv]

/-- A collection that keeps what the program can get at refines no step at all. -/
theorem Refines.collected (h : HeapInv g tracked) (r : Refines rounded s g tracked names known)
    (c : Collected g g' tracked tracked' keep φ) (hk : known ⊆ keep) :
    Refines rounded s g' tracked' names (φ '' known) := by
  have href : ∀ {v}, v = 0 ∨ v ∈ known → g'.refTag (φ v) = g.refTag v :=
    fun hv => c.refTag h (hv.imp_right fun hm => hk hm)
  have himage : ∀ {v}, v = 0 ∨ v ∈ known → φ v = 0 ∨ φ v ∈ φ '' known := by
    rintro v (rfl | hv)
    · exact .inl c.zero
    · exact .inr ⟨v, hv, rfl⟩
  refine ⟨?_, ⟨fun i => ?_, ?_, ?_⟩, c.history.trans r.history, fun i => ?_, ?_, r.acquired, r.live,
    r.gone, ?_⟩
  · rintro _ ⟨a, ha, rfl⟩
    exact c.mem (hk ha)
  · rw [c.roots]
    exact himage (r.closed.roots i)
  · intro k hk'
    rw [c.handles] at hk'
    obtain ⟨k₀, hk₀, rfl⟩ := List.mem_map.mp hk'
    exact ⟨k₀.target, r.closed.handles k₀ hk₀, rfl⟩
  · rintro _ ⟨a, ha, rfl⟩ p
    rw [c.slot h (hk ha)]
    exact himage (r.closed.fields a ha p)
  · rw [c.roots, href (r.closed.roots i)]
    exact r.roots i
  · rw [c.handles, List.map_map, ← r.handles]
    refine List.map_congr_left fun k hk' => ?_
    have htag := c.tagAt h (hk (r.closed.handles k hk'))
    show (k.addr, g'.tagAt (φ k.target), k.flags) = _
    rw [htag]
  · rintro _ ⟨a, ha, rfl⟩ o' ho'
    obtain ⟨o, ho, -⟩ := h.objs a (r.sub a ha)
    obtain rfl := Option.some.inj (ho'.symm.trans (c.objs a (hk ha) o ho))
    obtain ⟨x, hx, hsame⟩ := r.objs a ha o ho
    refine ⟨x, hx, hsame.desc, hsame.size, hsame.flags, hsame.kind, hsame.bytes, fun p => ?_⟩
    show g'.refTag (φ (o.slots p)) = x.slots p
    rw [← hsame.slots p, ← Graph.slot_eq ho]
    exact href (r.closed.fields a ha p)

/-! ### Changes of one object -/

theorem Graph.refTag_modifyObj (g : Graph) (a : Addr) {f : GcHeader → GcHeader}
    (hf : ∀ o, (f o).tag = o.tag) (v : Addr) : (g.modifyObj a f).refTag v = g.refTag v := by
  unfold Graph.refTag
  rw [g.tagAt_modifyObj a v hf]

@[simp] theorem ProgState.modify_objs (s : ProgState) (t u : Nat) (F : ProgObj → ProgObj) :
    (s.modify t F).objs[u]? = s.objs[u]?.map fun x => if t = u then F x else x :=
  List.getElem?_modify ..

/-- A change of an object that the program knows about. -/
theorem Refines.modify (r : Refines rounded s g tracked names known) {a : Addr} (ha : a ∈ known)
    (hinj : ∀ b ∈ known, g.tagAt b = g.tagAt a → b = a) {f : GcHeader → GcHeader}
    {F : ProgObj → ProgObj} (htag : ∀ o, (f o).tag = o.tag) (hdesc : ∀ x, (F x).desc = x.desc)
    (hsame : ∀ x o, g.objs a = some o → SameObj rounded g.refTag x o →
      SameObj rounded g.refTag (F x) (f o))
    (hslots : ∀ o, g.objs a = some o → ∀ p, (f o).slots p = 0 ∨ (f o).slots p ∈ known) :
    Refines rounded (s.modify (g.tagAt a) F) (g.modifyObj a f) tracked names known := by
  have href := fun v => g.refTag_modifyObj a htag v
  refine ⟨r.sub, ⟨r.closed.roots, r.closed.handles, fun b hb p => ?_⟩, ?_,
    fun i => (href _).trans (r.roots i), ?_, r.acquired, r.live, r.gone, fun b hb o' ho' => ?_⟩
  · by_cases hba : b = a
    · subst hba
      cases ho : g.objs b with
      | none => exact .inl (by simp [Graph.slot, ho])
      | some o =>
        have hobj : (g.modifyObj b f).objs b = some (f o) := by simp [ho]
        rw [Graph.slot_eq hobj]
        exact hslots o ho p
    · have hobj : (g.modifyObj a f).objs b = g.objs b := by simp [hba]
      rw [Graph.slot_congr hobj]
      exact r.closed.fields b hb p
  · show g.history = _
    rw [r.history]
    refine List.ext_getElem? fun t => ?_
    rw [List.getElem?_map, List.getElem?_map, s.modify_objs, Option.map_map]
    cases s.objs[t]? with
    | none => rfl
    | some x =>
      simp only [Option.map_some, Option.some.injEq, Function.comp_apply]
      split
      · exact (hdesc x).symm
      · rfl
  · rw [show (s.modify (g.tagAt a) F).handles = s.handles from rfl, ← r.handles]
    refine List.map_congr_left fun k _ => ?_
    rw [g.tagAt_modifyObj a k.target htag]
  · by_cases hba : b = a
    · subst hba
      rw [Graph.modifyObj_objs, if_pos rfl] at ho'
      obtain ⟨o, ho, rfl⟩ := Option.map_eq_some_iff.mp ho'
      obtain ⟨x, hx, hs⟩ := r.objs b hb o ho
      obtain ⟨h₁, h₂, h₃, h₄, h₅, h₆⟩ := hsame x o ho hs
      refine ⟨F x, ?_, h₁, h₂, h₃, h₄, h₅, fun p => (href _).trans (h₆ p)⟩
      rw [s.modify_objs, htag, hx, Graph.tagAt_eq ho]
      exact congrArg some (if_pos rfl)
    · rw [Graph.modifyObj_objs, if_neg hba] at ho'
      obtain ⟨x, hx, h₁, h₂, h₃, h₄, h₅, h₆⟩ := r.objs b hb o' ho'
      refine ⟨x, ?_, h₁, h₂, h₃, h₄, h₅, fun p => (href _).trans (h₆ p)⟩
      have hne : g.tagAt a ≠ o'.tag := fun he =>
        hba (hinj b hb ((Graph.tagAt_eq ho').trans he.symm))
      rw [s.modify_objs, hx]
      exact congrArg some (if_neg hne)

/-- A change of the flags of an object. -/
theorem Refines.setFlags (r : Refines rounded s g tracked names known) {a : Addr}
    (hinj : ∀ b ∈ known, g.tagAt b = g.tagAt a → b = a) (ha : a ∈ known)
    (f : BitVec 16 → BitVec 16) :
    Refines rounded (s.modify (g.tagAt a) fun x => { x with flags := f x.flags })
      (g.modifyObj a fun o => { o with flags := f o.flags }) tracked names known := by
  refine r.modify ha hinj (fun _ => rfl) (fun _ => rfl) (fun x o _ hs => ?_) fun o ho p => ?_
  · exact ⟨hs.desc, hs.size, congrArg f hs.flags, hs.kind, hs.bytes, hs.slots⟩
  · show o.slots p = 0 ∨ o.slots p ∈ known
    rw [← Graph.slot_eq ho]
    exact r.closed.fields a ha p

/-! ### Root slots and new objects -/

theorem Refines.setRoot (r : Refines rounded s g tracked names known) {v : Addr}
    (hv : v = 0 ∨ v ∈ known) (i : Nat) :
    Refines rounded (s.setRoot i (g.refTag v)) (g.write (.root i) v) tracked names known := by
  refine ⟨r.sub, ⟨fun j => ?_, r.closed.handles, r.closed.fields⟩, r.history, fun j => ?_,
    r.handles, r.acquired, r.live, r.gone, r.objs⟩
  · show Function.update g.roots i v j = 0 ∨ Function.update g.roots i v j ∈ known
    rw [Function.update_apply]
    split
    · exact hv
    · exact r.closed.roots j
  · show g.refTag (Function.update g.roots i v j) = Function.update s.roots i (g.refTag v) j
    rw [Function.update_apply, Function.update_apply]
    split
    · rfl
    · exact r.roots j

/-- The new object is the next one that the program knows about. -/
theorem Refines.push (h : HeapInv g tracked) (r : Refines rounded s g tracked names known)
    {desc : GcDescriptor} {size : Nat} {flags : BitVec 32} {a : Addr}
    (ha : Allocated desc (rounded size) flags g tracked a g' tracked')
    (hsize : rounded size < 2 ^ 32) :
    Refines rounded (s.push desc size (allocatedFlags desc flags)) g' tracked' names
      (insert a known) ∧ g'.refTag a = some s.objs.length := by
  have hobj := ha.obj
  obtain ⟨objs, hobjs, rfl⟩ := ha.graph
  set g' : Graph := { Graph.setObj { g with objs } a (some (newHeader desc (rounded size)
    (allocatedFlags desc flags) g.history.length)) with history := g.history ++ [desc] } with hg'
  have hlen : g.history.length = s.objs.length := by rw [r.history, List.length_map]
  have hold : ∀ b ∈ known, g'.objs b = g.objs b := by
    intro b hb
    have hne : b ≠ a := fun he => ha.new (he ▸ r.sub b hb)
    rw [← hobjs b (r.sub b hb)]
    simp [hg', hne]
  have htag : ∀ b ∈ known, g'.tagAt b = g.tagAt b := fun b hb => by
    rw [Graph.tagAt, Graph.tagAt, hold b hb]
  have href : ∀ v, v = 0 ∨ v ∈ known → g'.refTag v = g.refTag v := by
    rintro v (rfl | hv)
    · rw [Graph.refTag_zero, Graph.refTag_zero]
    · have h0 := h.ne_zero (r.sub v hv)
      rw [g'.refTag_of_ne h0, g.refTag_of_ne h0, htag v hv]
  have hzero : ∀ p, g'.slot a p = 0 := fun p => Graph.slot_eq hobj p
  refine ⟨⟨?_, ⟨fun i => ?_, fun k hk => ?_, ?_⟩, ?_, fun i => ?_, ?_, r.acquired, r.live, r.gone,
    ?_⟩, ?_⟩
  · rintro b (rfl | hb)
    · exact ha.perm.mem_iff.mpr List.mem_cons_self
    · exact ha.perm.mem_iff.mpr (List.mem_cons_of_mem _ (r.sub b hb))
  · exact (r.closed.roots i).imp_right (Set.mem_insert_of_mem a)
  · exact Set.mem_insert_of_mem a (r.closed.handles k hk)
  · rintro b (rfl | hb) p
    · exact .inl (hzero p)
    · rw [Graph.slot_congr (hold b hb)]
      exact (r.closed.fields b hb p).imp_right (Set.mem_insert_of_mem a)
  · show g.history ++ [desc] = _
    rw [r.history, ProgState.push, List.map_append]
    rfl
  · exact (href _ (r.closed.roots i)).trans (r.roots i)
  · rw [show (s.push desc size _).handles = s.handles from rfl, ← r.handles]
    refine List.map_congr_left fun k hk => ?_
    rw [htag k.target (r.closed.handles k hk)]
  · rintro b (rfl | hb) o ho
    · obtain rfl := Option.some.inj (ho.symm.trans hobj)
      refine ⟨_, (congrArg _ hlen).trans List.getElem?_concat_length, rfl, ?_, rfl, rfl, rfl,
        fun p => g'.refTag_zero⟩
      exact Nat.mod_eq_of_lt hsize
    · have ho' := (hold b hb).symm.trans ho
      obtain ⟨x, hx, h₁, h₂, h₃, h₄, h₅, h₆⟩ := r.objs b hb o ho'
      have hlt : o.tag < s.objs.length := (List.getElem?_eq_some_iff.mp hx).1
      refine ⟨x, (List.getElem?_append_left hlt).trans hx, h₁, h₂, h₃, h₄, h₅, fun p => ?_⟩
      rw [← h₆ p]
      refine href _ ?_
      rw [← Graph.slot_eq ho']
      exact r.closed.fields b hb p
  · rw [g'.refTag_of_ne ha.ne_zero, Graph.tagAt_eq hobj, ← hlen]
    rfl

/-! ### Handles and paths -/

theorem Refines.name_lt (r : Refines rounded s g tracked names known) {k : ProgHandle}
    (hk : k ∈ s.handles) : k.name < names.length := by
  by_contra hlt
  refine r.live k hk ?_
  rw [List.getD_eq_getElem?_getD, List.getElem?_eq_none (Nat.le_of_not_lt hlt)]
  rfl

/-- Each handle of the program is one of the heap. -/
theorem Refines.exists_handle (r : Refines rounded s g tracked names known) {k : ProgHandle}
    (hk : k ∈ s.handles) : ∃ k₀ ∈ g.handles, k₀.addr = names.getD k.name 0 ∧
      g.tagAt k₀.target = k.target := by
  have hmem := List.mem_map_of_mem (f := fun k : ProgHandle =>
    (names.getD k.name 0, k.target, k.flags)) hk
  rw [← r.handles] at hmem
  obtain ⟨k₀, hk₀, he⟩ := List.mem_map.mp hmem
  simp only [Prod.mk.injEq] at he
  exact ⟨k₀, hk₀, he.1, he.2.1⟩

theorem Refines.addr_ne_zero (r : Refines rounded s g tracked names known) {k : GcHandle}
    (hk : k ∈ g.handles) : ∃ k' ∈ s.handles, names.getD k'.name 0 = k.addr ∧ k.addr ≠ 0 := by
  have hmem := List.mem_map_of_mem (f := fun k : GcHandle => (k.addr, g.tagAt k.target, k.flags)) hk
  rw [r.handles] at hmem
  obtain ⟨k', hk', he⟩ := List.mem_map.mp hmem
  simp only [Prod.mk.injEq] at he
  exact ⟨k', hk', he.1, he.1 ▸ r.live k' hk'⟩

/-- What the handle of a given number leads to. -/
theorem Refines.target (h : HeapInv g tracked) (r : Refines rounded s g tracked names known)
    (n : Nat) : (g.target (names.getD n 0) = 0 ∨ g.target (names.getD n 0) ∈ known) ∧
      g.refTag (g.target (names.getD n 0)) = s.eval (.handle n) := by
  simp only [ProgState.eval]
  cases hf : s.handles.find? fun k => k.name = n with
  | some k =>
    have hk := List.mem_of_find?_eq_some hf
    obtain rfl : k.name = n := by simpa using List.find?_some hf
    obtain ⟨k₀, hk₀, haddr, htag⟩ := r.exists_handle hk
    have hknown := r.closed.handles k₀ hk₀
    rw [← haddr, h.target_eq hk₀, g.refTag_of_ne (h.ne_zero (r.sub _ hknown)), htag]
    exact ⟨.inr hknown, rfl⟩
  | none =>
    have hgone := r.gone n fun k hk hn => by
      simpa [hn] using List.find?_eq_none.mp hf k hk
    have hnone : g.target 0 = 0 := by
      have hfind : (g.handles.find? fun k => k.addr = 0) = none := by
        rw [List.find?_eq_none]
        intro k hk
        obtain ⟨-, -, -, h0⟩ := r.addr_ne_zero hk
        simpa using h0
      simp [Graph.target, hfind]
    rw [hgone, hnone]
    exact ⟨.inl rfl, g.refTag_zero⟩

theorem getD_append_of_lt {l : List Addr} {n : Nat} (hn : n < l.length) (a : Addr) :
    (l ++ [a]).getD n 0 = l.getD n 0 := by
  rw [List.getD_eq_getElem?_getD, List.getElem?_append_left hn, List.getD_eq_getElem?_getD]

/-- The heap with one more handle, which is `NULL` or new. -/
theorem Refines.named (r : Refines rounded s g tracked names known) {a : Addr}
    {handles : List GcHandle} {added : List ProgHandle}
    (hold : ∀ k ∈ added, k.name = s.acquired ∧ a ≠ 0) (hnone : added = [] → a = 0)
    (hheap : ∀ k ∈ handles, k ∈ g.handles ∨ k.target ∈ known)
    (hmap : (handles.map fun k => (k.addr, g.tagAt k.target, k.flags)) =
      (added.map fun k => (a, k.target, k.flags)) ++
        g.handles.map fun k => (k.addr, g.tagAt k.target, k.flags)) :
    Refines rounded { s with handles := added ++ s.handles, acquired := s.acquired + 1 }
      { g with handles } tracked (names ++ [a]) known := by
  have hlen := r.acquired
  have hlast : (names ++ [a]).getD names.length 0 = a := by
    rw [List.getD_eq_getElem?_getD, List.getElem?_concat_length]
    rfl
  refine ⟨r.sub, ⟨r.closed.roots, fun k hk => ?_, r.closed.fields⟩, r.history, r.roots, ?_, ?_,
    fun k hk => ?_, fun n hn => ?_, r.objs⟩
  · exact (hheap k hk).elim (r.closed.handles k) id
  · show (handles.map fun k => (k.addr, g.tagAt k.target, k.flags)) = _
    rw [hmap, r.handles, List.map_append]
    refine congrArg₂ (· ++ ·) (List.map_congr_left fun k hk => ?_)
      (List.map_congr_left fun k hk => ?_)
    · rw [(hold k hk).1, ← hlen, hlast]
    · rw [getD_append_of_lt (r.name_lt hk)]
  · show (names ++ [a]).length = s.acquired + 1
    rw [List.length_append, hlen]
    rfl
  · rcases List.mem_append.mp hk with hk | hk
    · rw [(hold k hk).1, ← hlen, hlast]
      exact (hold k hk).2
    · rw [getD_append_of_lt (r.name_lt hk)]
      exact r.live k hk
  · rcases Nat.lt_trichotomy n names.length with hlt | rfl | hgt
    · rw [getD_append_of_lt hlt]
      exact r.gone n fun k hk => hn k (List.mem_append_right _ hk)
    · rw [hlast]
      refine hnone (List.eq_nil_iff_forall_not_mem.mpr fun k hk => ?_)
      exact hn k (List.mem_append_left _ hk) ((hold k hk).1.trans hlen.symm)
    · rw [List.getD_eq_getElem?_getD, List.getElem?_eq_none]
      · rfl
      · rw [List.length_append]
        exact hgt

/-- A new handle, and the object that it pins. -/
theorem Refines.pushHandle (h : HeapInv g tracked) (r : Refines rounded s g tracked names known)
    {k : GcHandle} (hk : k.target ∈ known) (h0 : k.addr ≠ 0) :
    Refines rounded { s.pushHandle (g.tagAt k.target) k.flags with acquired := s.acquired + 1 }
      (g.pushHandle k) tracked (names ++ [k.addr]) known := by
  let k' : ProgHandle := { name := s.acquired, target := g.tagAt k.target, flags := k.flags }
  have r₁ : Refines rounded { s with handles := [k'] ++ s.handles, acquired := s.acquired + 1 }
      { g with handles := k :: g.handles } tracked (names ++ [k.addr]) known := by
    refine r.named (fun k₁ hk₁ => ?_) (fun hn => absurd hn (List.cons_ne_nil _ _))
      (fun k₁ hk₁ => ?_) rfl
    · obtain rfl := List.mem_singleton.mp hk₁
      exact ⟨rfl, h0⟩
    · rcases List.mem_cons.mp hk₁ with rfl | hk₁
      · exact .inr hk
      · exact .inl hk₁
  exact r₁.setFlags (fun b hb he => h.tag_inj (r.sub b hb) (r.sub _ hk) he) hk
    (· ||| objectFlagPinned)

theorem getD_set (l : List Addr) (n m : Nat) :
    (l.set n 0).getD m 0 = if m = n then 0 else l.getD m 0 := by
  rw [List.getD_eq_getElem?_getD, List.getElem?_set, List.getD_eq_getElem?_getD]
  by_cases hmn : m = n
  · subst hmn
    rw [if_pos rfl, if_pos rfl]
    split <;> rfl
  · rw [if_neg fun he => hmn he.symm, if_neg hmn]

theorem eraseP_congr {α : Type} {p q : α → Bool} : ∀ {l : List α}, (∀ x ∈ l, p x = q x) →
    l.eraseP p = l.eraseP q
  | [], _ => rfl
  | x :: l, h => by
      rw [List.eraseP_cons, List.eraseP_cons, h x List.mem_cons_self,
        eraseP_congr fun y hy => h y (List.mem_cons_of_mem _ hy)]

theorem Refines.names_nodup (h : HeapInv g tracked) (r : Refines rounded s g tracked names known) :
    (s.handles.map ProgHandle.name).Nodup := by
  have haddr : g.handles.map GcHandle.addr =
      (s.handles.map ProgHandle.name).map fun n => names.getD n 0 := by
    have hmap := congrArg (List.map Prod.fst) r.handles
    rw [List.map_map, List.map_map] at hmap
    rw [List.map_map]
    exact hmap
  have hnodup := h.handleAddrs
  rw [haddr] at hnodup
  exact hnodup.of_map _

/-- Erasing the handle of a given number leaves those of other numbers. -/
theorem Refines.name_ne (h : HeapInv g tracked) (r : Refines rounded s g tracked names known)
    {n : Nat} {k : ProgHandle} (hk : k ∈ s.handles.eraseP fun k => k.name = n) : k.name ≠ n := by
  intro hn
  obtain ⟨k', l₁, l₂, hl₁, hk', heq, herase⟩ := List.exists_of_eraseP
    (p := fun k : ProgHandle => decide (k.name = n)) (List.mem_of_mem_eraseP hk) (by simpa using hn)
  rw [herase] at hk
  rcases List.mem_append.mp hk with hk | hk
  · exact hl₁ k hk (by simpa using hn)
  · have hnodup := r.names_nodup h
    rw [heq, List.map_append, List.map_cons] at hnodup
    have hnot := (List.nodup_cons.mp (List.nodup_append.mp hnodup).2.1).1
    refine hnot (List.mem_map.mpr ⟨k, hk, hn.trans ?_⟩)
    simpa using Eq.symm (of_decide_eq_true hk')

/-- Releasing `NULL` once more. -/
theorem Refines.forget (r : Refines rounded s g tracked names known) {n : Nat}
    (hn : names.getD n 0 = 0) : Refines rounded s g tracked (names.set n 0) known := by
  have heq : ∀ m, (names.set n 0).getD m 0 = names.getD m 0 := by
    intro m
    rw [getD_set]
    split
    · next hm => rw [hm, hn]
    · rfl
  refine ⟨r.sub, r.closed, r.history, r.roots, ?_, ?_, fun k hk => ?_, fun m hm => ?_, r.objs⟩
  · simp only [heq]
    exact r.handles
  · rw [List.length_set]
    exact r.acquired
  · rw [heq]
    exact r.live k hk
  · rw [heq]
    exact r.gone m hm

/-- The end of a handle, and the object that it unpins. -/
theorem Refines.popHandle (h : HeapInv g tracked) (r : Refines rounded s g tracked names known)
    {k : GcHandle} {n : Nat} (hk : k ∈ g.handles) (hn : k.addr = names.getD n 0) :
    ∃ k', s.handles.find? (fun k => k.name = n) = some k' ∧
      Refines rounded (s.popHandle k') (g.popHandle k) tracked (names.set n 0) known := by
  obtain ⟨-, -, -, h0⟩ := r.addr_ne_zero hk
  have hex : ∃ k' ∈ s.handles, k'.name = n := by
    by_contra hno
    push Not at hno
    exact h0 (hn.trans (r.gone n hno))
  obtain ⟨k', hf⟩ := Option.isSome_iff_exists.mp
    (List.find?_isSome.mpr (by simpa using hex) :
      (s.handles.find? fun k => decide (k.name = n)).isSome)
  have hk' := List.mem_of_find?_eq_some hf
  obtain rfl : k'.name = n := by simpa using List.find?_some hf
  refine ⟨k', hf, ?_⟩
  -- the handle is the one that the program means
  obtain ⟨k₀, hk₀, haddr, htag⟩ := r.exists_handle hk'
  obtain rfl := List.inj_on_of_nodup_map h.handleAddrs hk₀ hk (haddr.trans hn.symm)
  have herase : (s.handles.eraseP fun k₁ => names.getD k₁.name 0 = k₀.addr) =
      s.handles.eraseP fun k₁ => k₁.name = k'.name :=
    eraseP_congr fun k₁ hk₁ => by rw [hn, decide_eq_decide]; exact r.handle_iff h hk' hk₁
  have hother := fun k₁ hk₁ => @Refines.name_ne _ _ _ _ _ _ h r k'.name k₁ hk₁
  have r₁ : Refines rounded { s with handles := s.handles.eraseP fun k₁ => k₁.name = k'.name }
      { g with handles := g.handles.eraseP fun k₁ => k₁.addr = k₀.addr } tracked
      (names.set k'.name 0) known := by
    refine ⟨r.sub, ⟨r.closed.roots, fun k₁ hk₁ => ?_, r.closed.fields⟩, r.history, r.roots, ?_, ?_,
      fun k₁ hk₁ => ?_, fun m hm => ?_, r.objs⟩
    · exact r.closed.handles k₁ (List.mem_of_mem_eraseP hk₁)
    · show ((g.handles.eraseP fun k₁ => decide (k₁.addr = k₀.addr)).map
        fun k => (k.addr, g.tagAt k.target, k.flags)) = _
      have hmap := congrArg (List.eraseP fun p => decide (p.1 = k₀.addr)) r.handles
      rw [List.eraseP_map, List.eraseP_map] at hmap
      refine hmap.trans ?_
      rw [show s.handles.eraseP ((fun p => decide (p.1 = k₀.addr)) ∘ fun k : ProgHandle =>
        (names.getD k.name 0, k.target, k.flags)) = _ from herase]
      refine List.map_congr_left fun k₁ hk₁ => ?_
      rw [getD_set, if_neg (hother k₁ hk₁)]
    · rw [List.length_set]
      exact r.acquired
    · rw [getD_set, if_neg (hother k₁ hk₁)]
      exact r.live k₁ (List.mem_of_mem_eraseP hk₁)
    · rw [getD_set]
      split
      · rfl
      · next hne =>
        refine r.gone m fun k₁ hk₁ he => ?_
        have hkeep : k₁ ∈ s.handles.eraseP fun k₁ => k₁.name = k'.name :=
          (List.mem_eraseP_of_neg (by simpa [he] using hne)).mpr hk₁
        exact hm k₁ hkeep he
  have hknown := r.closed.handles k₀ hk
  unfold ProgState.popHandle
  rw [← htag]
  exact r₁.setFlags (fun b hb he => h.tag_inj (r.sub b hb) (r.sub _ hknown) he) hknown
    (· &&& ~~~objectFlagPinned)

variable {σ : Type} {C : Collector σ} {w : World σ}

/-- A path leads to the object that the program means. -/
theorem Refines.eval (h : HeapInv w.graph tracked)
    (r : Refines rounded s w.graph tracked names known)
    (hread : ∀ place, gcLoadRef C.algo w place = w.graph.read place) (p : Path) :
    (p.eval C w names = 0 ∨ p.eval C w names ∈ known) ∧
      w.graph.refTag (p.eval C w names) = s.eval p := by
  induction p with
  | root i =>
    simp only [Path.eval, hread, Graph.read_root]
    exact ⟨r.closed.roots i, r.roots i⟩
  | handle n => exact r.target h n
  | slot p loc ih =>
    obtain ⟨hp, htag⟩ := ih
    simp only [Path.eval, ProgState.eval, ← htag]
    by_cases h0 : p.eval C w names = 0
    · rw [if_pos h0, h0, Graph.refTag_zero]
      exact ⟨.inl rfl, rfl⟩
    · have hk := hp.resolve_left h0
      obtain ⟨o, ho, -⟩ := h.objs _ (r.sub _ hk)
      obtain ⟨x, hx, hsame⟩ := r.objs _ hk o ho
      rw [if_neg h0, hread, Graph.refTag_of_ne _ h0, Graph.tagAt_eq ho]
      show (w.graph.slot _ loc = 0 ∨ w.graph.slot _ loc ∈ known) ∧
        w.graph.refTag (w.graph.slot _ loc) = _
      refine ⟨r.closed.fields _ hk loc, ?_⟩
      rw [Graph.slot_eq ho, hsame.slots loc]
      simp [hx]

theorem Refines.evalRef (h : HeapInv w.graph tracked)
    (r : Refines rounded s w.graph tracked names known)
    (hread : ∀ place, gcLoadRef C.algo w place = w.graph.read place) (p : Option Path) :
    (Path.evalRef C w names p = 0 ∨ Path.evalRef C w names p ∈ known) ∧
      w.graph.refTag (Path.evalRef C w names p) = p.bind s.eval := by
  cases p with
  | none => exact ⟨.inl rfl, Graph.refTag_zero _⟩
  | some p => exact r.eval h hread p

/-! ### Steps of a program -/

/-- What the calls of a collector have to be like for it to run programs as they are meant. -/
structure Collector.Runs [Inhabited σ] (C : Collector σ) (Inv : World σ → Prop) : Prop where
  init : ∀ init, C.algo.globalInit = some init → ∀ w cfg, (init w cfg).graph = w.graph
  lawful : C.Lawful Inv
  read : ∀ w place, gcLoadRef C.algo w place = w.graph.read place
  size : ∀ n, sizeofHeader ≤ n → n ≤ C.maxSize → C.rounded n < 2 ^ 32

/-- The heap of a runtime holds what the program can get at. -/
def Collector.Holds (C : Collector σ) (s : ProgState) (w : World σ) (names : List Addr) : Prop :=
  Refines C.rounded s w.graph (C.tracked w) names {a | w.graph.Reachable a}

variable [Inhabited σ] {Inv : World σ → Prop} {w' : World σ} {names' : List Addr}

theorem Collector.Runs.alloc (hC : C.Runs Inv) (h : Inv w) (r : C.Holds s w names) {i : Nat}
    {desc : GcDescriptor} {size : Nat} {flags : BitVec 32}
    (hst : ProgOp.Step C (w, names) (.alloc i desc size flags) (w', names')) :
    Inv w' ∧ C.Holds (s.step (.alloc i desc size flags)) w' names' := by
  obtain ⟨halloc, hset, rfl⟩ := hst
  obtain ⟨h₁, he₁⟩ := hC.lawful.step _ _ _ h halloc
  obtain ⟨h₂, hgraph, htracked⟩ := hC.lawful.step _ _ _ h₁ hset
  refine ⟨h₂, ?_⟩
  set r₁ := (ClientOp.alloc desc size flags).perform C w
  have hheap := hC.lawful.heap w h
  have hheap₂ := hC.lawful.heap w' h₂
  rw [hgraph, htracked] at hheap₂
  unfold Collector.Holds
  rw [hgraph, htracked]
  simp only [Effect] at he₁
  simp only [ProgState.step]
  by_cases hsmall : size < sizeofHeader
  · rw [if_pos hsmall] at he₁ ⊢
    obtain ⟨hnull, hg, ht⟩ := he₁
    rw [hg, ht, hnull] at hheap₂ ⊢
    have hput := Refines.setRoot r (.inl rfl) i
    rw [Graph.refTag_zero] at hput
    exact hput.reachable hheap₂
  · rw [if_neg hsmall] at he₁ ⊢
    obtain ⟨g₁, tracked₁, keep, φ, hc, ha⟩ := he₁
    have hmoved := Refines.collected hheap r hc fun a ha => hc.closed.reachable ha
    obtain ⟨hnew, htag⟩ := hmoved.push (hc.heapInv hheap) ha
      (hC.size size (Nat.le_of_not_lt hsmall) halloc.1.2)
    have hput := hnew.setRoot (.inr (Set.mem_insert _ _)) i
    rw [htag] at hput
    exact hput.reachable hheap₂

/-- The object that a path has to lead to. -/
theorem Collector.Runs.owner (hC : C.Runs Inv) (h : Inv w) (r : C.Holds s w names) (p : Path)
    (hmem : p.eval C w names ∈ C.tracked w) :
    w.graph.Reachable (p.eval C w names) ∧
      s.eval p = some (w.graph.tagAt (p.eval C w names)) := by
  have hheap := hC.lawful.heap w h
  have h0 := hheap.ne_zero hmem
  obtain ⟨hp, htag⟩ := Refines.eval hheap r (hC.read w) p
  exact ⟨hp.resolve_left h0, htag.symm.trans (Graph.refTag_of_ne _ h0)⟩

/-- A change of an object that a path leads to. -/
theorem Collector.Runs.modify (hC : C.Runs Inv) (h : Inv w) (h' : Inv w') (r : C.Holds s w names)
    {a : Addr} (ha : w.graph.Reachable a) {f : GcHeader → GcHeader} {F : ProgObj → ProgObj}
    (hgraph : w'.graph = w.graph.modifyObj a f) (htracked : C.tracked w' = C.tracked w)
    (htag : ∀ o, (f o).tag = o.tag) (hdesc : ∀ x, (F x).desc = x.desc)
    (hsame : ∀ x o, w.graph.objs a = some o → SameObj C.rounded w.graph.refTag x o →
      SameObj C.rounded w.graph.refTag (F x) (f o))
    (hslots : ∀ o, w.graph.objs a = some o → ∀ p,
      (f o).slots p = 0 ∨ w.graph.Reachable ((f o).slots p)) :
    C.Holds (s.modify (w.graph.tagAt a) F) w' names := by
  have hheap := hC.lawful.heap w h
  have hheap' := hC.lawful.heap w' h'
  rw [hgraph, htracked] at hheap'
  unfold Collector.Holds
  rw [hgraph, htracked]
  refine Refines.reachable hheap' (Refines.modify r ha (fun b hb he => ?_) htag hdesc hsame hslots)
  exact hheap.tag_inj (hheap.mem_of_reachable hb) (hheap.mem_of_reachable ha) he

theorem Collector.Runs.store (hC : C.Runs Inv) (h : Inv w) (r : C.Holds s w names) {owner : Path}
    {loc : SlotLoc} {value : Option Path}
    (hst : ProgOp.Step C (w, names) (.store owner loc value) (w', names')) :
    Inv w' ∧ C.Holds (s.step (.store owner loc value)) w' names' := by
  simp only [ProgOp.Step] at hst
  obtain ⟨hstore, rfl⟩ := hst
  obtain ⟨h', hgraph, htracked⟩ := hC.lawful.step _ _ _ h hstore
  have hheap := hC.lawful.heap w h
  obtain ⟨ha, howner⟩ := hC.owner h r owner hstore.1.1
  obtain ⟨hv, hvalue⟩ := Refines.evalRef hheap r (hC.read w) value
  refine ⟨h', ?_⟩
  simp only [ProgState.step, howner]
  refine hC.modify h h' r ha hgraph htracked (fun _ => rfl) (fun _ => rfl) (fun x o _ hs => ?_)
    fun o ho p => ?_
  · refine ⟨hs.desc, hs.size, hs.flags, hs.kind, hs.bytes, fun p => ?_⟩
    simp only [Function.update_apply]
    split
    · exact hvalue
    · exact hs.slots p
  · simp only [Function.update_apply]
    split
    · exact hv
    · rw [← Graph.slot_eq ho]
      exact hheap.closed_reachable.fields _ ha p

theorem Collector.Runs.write (hC : C.Runs Inv) (h : Inv w) (r : C.Holds s w names) {obj : Path}
    {bytes : Nat → UInt8} (hst : ProgOp.Step C (w, names) (.write obj bytes) (w', names')) :
    Inv w' ∧ C.Holds (s.step (.write obj bytes)) w' names' := by
  simp only [ProgOp.Step] at hst
  obtain ⟨hwrite, rfl⟩ := hst
  obtain ⟨h', hgraph, htracked⟩ := hC.lawful.step _ _ _ h hwrite
  obtain ⟨ha, hobj⟩ := hC.owner h r obj hwrite.1.1
  refine ⟨h', ?_⟩
  simp only [ProgState.step, hobj]
  refine hC.modify h h' r ha hgraph htracked (fun _ => rfl) (fun _ => rfl) (fun x o _ hs => ?_)
    fun o ho p => ?_
  · exact ⟨hs.desc, hs.size, hs.flags, hs.kind, rfl, hs.slots⟩
  · show o.slots p = 0 ∨ _
    rw [← Graph.slot_eq ho]
    exact (hC.lawful.heap w h).closed_reachable.fields _ ha p

theorem Collector.Runs.setRoot (hC : C.Runs Inv) (h : Inv w) (r : C.Holds s w names) {i : Nat}
    {value : Option Path} (hst : ProgOp.Step C (w, names) (.setRoot i value) (w', names')) :
    Inv w' ∧ C.Holds (s.step (.setRoot i value)) w' names' := by
  simp only [ProgOp.Step] at hst
  obtain ⟨hset, rfl⟩ := hst
  obtain ⟨h', hgraph, htracked⟩ := hC.lawful.step _ _ _ h hset
  have hheap' := hC.lawful.heap w' h'
  obtain ⟨hv, hvalue⟩ := Refines.evalRef (hC.lawful.heap w h) r (hC.read w) value
  refine ⟨h', ?_⟩
  rw [hgraph, htracked] at hheap'
  unfold Collector.Holds
  rw [hgraph, htracked, ProgState.step, ← hvalue]
  exact Refines.reachable hheap' (Refines.setRoot r hv i)

theorem Collector.Runs.acquire (hC : C.Runs Inv) (h : Inv w) (r : C.Holds s w names) {obj : Path}
    {flags : BitVec 32} (hst : ProgOp.Step C (w, names) (.acquire obj flags) (w', names')) :
    Inv w' ∧ C.Holds (s.step (.acquire obj flags)) w' names' := by
  simp only [ProgOp.Step] at hst
  obtain ⟨hacquire, rfl⟩ := hst
  obtain ⟨h', heff⟩ := hC.lawful.step _ _ _ h hacquire
  have hheap := hC.lawful.heap w h
  have hheap' := hC.lawful.heap w' h'
  obtain ⟨hp, hobj⟩ := Refines.eval hheap r (hC.read w) obj
  refine ⟨h', ?_⟩
  unfold Collector.Holds
  set a := obj.eval C w names
  simp only [Effect] at heff
  by_cases h0 : a = 0
  · rw [if_pos h0] at heff
    obtain ⟨hnull, hgraph, htracked⟩ := heff
    rw [h0, Graph.refTag_zero] at hobj
    simp only [ProgState.step, ← hobj, hnull, hgraph, htracked]
    exact Refines.named r (fun k hk => absurd hk List.not_mem_nil) (fun _ => rfl)
      (fun k hk => .inl hk) rfl
  · rw [if_neg h0] at heff
    obtain ⟨hne, -, htracked, runtime, hgraph⟩ := heff
    rw [Graph.refTag_of_ne _ h0] at hobj
    rw [hgraph, htracked] at hheap'
    simp only [ProgState.step, ← hobj, hgraph, htracked]
    exact Refines.reachable hheap' (Refines.pushHandle hheap r (k := ⟨_, runtime, a, flags⟩)
      (hp.resolve_left h0) hne)

theorem Collector.Runs.release (hC : C.Runs Inv) (h : Inv w) (r : C.Holds s w names) {n : Nat}
    (hst : ProgOp.Step C (w, names) (.release n) (w', names')) :
    Inv w' ∧ C.Holds (s.step (.release n)) w' names' := by
  simp only [ProgOp.Step] at hst
  obtain ⟨hrelease, rfl⟩ := hst
  obtain ⟨h', heff⟩ := hC.lawful.step _ _ _ h hrelease
  have hheap := hC.lawful.heap w h
  have hheap' := hC.lawful.heap w' h'
  refine ⟨h', ?_⟩
  unfold Collector.Holds
  simp only [Effect] at heff
  by_cases h0 : names.getD n 0 = 0
  · rw [if_pos h0] at heff
    obtain ⟨hgraph, htracked⟩ := heff
    have hnone : (s.handles.find? fun k => k.name = n) = none := by
      rw [List.find?_eq_none]
      intro k hk hn
      obtain rfl : k.name = n := by simpa using hn
      exact r.live k hk h0
    simp only [ProgState.step, hnone, hgraph, htracked]
    exact r.forget h0
  · rw [if_neg h0] at heff
    obtain ⟨htracked, k, hk, haddr, hgraph⟩ := heff
    obtain ⟨k', hf, hr⟩ := Refines.popHandle hheap r hk haddr
    rw [hgraph, htracked] at hheap'
    simp only [ProgState.step, hf, hgraph, htracked]
    exact hr.reachable hheap'

/-- A collection is no step of the program. -/
theorem Collector.Runs.collect (hC : C.Runs Inv) (h : Inv w) (r : C.Holds s w names)
    {keep : Set Addr} {φ : Addr → Addr} (h' : Inv w')
    (hc : Collected w.graph w'.graph (C.tracked w) (C.tracked w') keep φ) :
    C.Holds s w' names :=
  (Refines.collected (hC.lawful.heap w h) r hc fun _ ha => hc.closed.reachable ha).reachable
    (hC.lawful.heap w' h')

/-- Each step on the collector is the step that the program means. -/
theorem Collector.Runs.step (hC : C.Runs Inv) (h : Inv w) (r : C.Holds s w names) {op : ProgOp}
    (hst : ProgOp.Step C (w, names) op (w', names')) :
    Inv w' ∧ C.Holds (s.step op) w' names' := by
  cases op with
  | alloc i desc size flags => exact hC.alloc h r hst
  | store owner loc value => exact hC.store h r hst
  | write obj bytes => exact hC.write h r hst
  | setRoot i value => exact hC.setRoot h r hst
  | acquire obj flags => exact hC.acquire h r hst
  | release n => exact hC.release h r hst
  | collectMinor =>
    obtain ⟨hst, rfl⟩ := hst
    obtain ⟨h', keep, φ, hc⟩ := hC.lawful.step _ _ _ h hst
    exact ⟨h', hC.collect h r h' hc⟩
  | collectMajor | collectFull =>
    obtain ⟨hst, rfl⟩ := hst
    obtain ⟨h', φ, hc⟩ := hC.lawful.step _ _ _ h hst
    exact ⟨h', hC.collect h r h' hc⟩

/-- A fresh runtime holds what there is before the first step. -/
theorem Collector.Runs.start (hC : C.Runs Inv) (hw : C.Starts w) : C.Holds .init w [] := by
  obtain ⟨hooks, hgraph⟩ := hw.graph hC.init
  have hnone : ∀ a, ¬ w.graph.Reachable a := by
    intro a ha
    refine Lib.Reach.mem_of_closed (S := ∅) ?_ (fun _ _ hx _ => hx) ha
    rintro x ⟨h0, ⟨i, hi⟩ | ⟨k, hk, -⟩⟩
    · rw [hgraph] at hi
      exact h0 hi.symm
    · rw [hgraph] at hk
      exact absurd hk List.not_mem_nil
  have hheap := hC.lawful.heap w (hC.lawful.start w hw)
  refine ⟨fun a ha => absurd ha (hnone a), hheap.closed_reachable, ?_, fun i => ?_, ?_, rfl,
    fun k hk => absurd hk List.not_mem_nil, fun n _ => rfl, fun a ha => absurd ha (hnone a)⟩
  · rw [hgraph]
    rfl
  · rw [hgraph]
    exact Graph.refTag_zero _
  · rw [hgraph]
    rfl

/-- A run on the collector ends in what the program means. -/
theorem Collector.Runs.run (hC : C.Runs Inv) {ops : List ProgOp} (hw : C.Starts w)
    (hrun : Run (ProgOp.Step C) (w, []) ops (w', names)) :
    Inv w' ∧ C.Holds (ops.foldl ProgState.step .init) w' names := by
  have hmeant := Run.foldl (L := fun _ => True) (f := ProgState.step) ops .init fun _ _ => trivial
  refine hrun.lockstep (R := fun (t : World σ × List Addr) s => Inv t.1 ∧ C.Holds s t.1 t.2)
    (fun t s op t' s' hr hst hs => ?_) hmeant ⟨hC.lawful.start w hw, hC.start hw⟩
  obtain ⟨-, rfl⟩ := hs
  exact hC.step hr.1 hr.2 hst

/-- Every algorithm that shows what it has to show runs programs as they are meant. -/
theorem Manager.Sound.runs {M : Manager σ} (hM : M.Sound)
    (hinit : ∀ init, M.algo.globalInit = some init → ∀ w cfg, (init w cfg).graph = w.graph) :
    M.toCollector.Runs M.Inv where
  init := hinit
  lawful := hM.lawful
  read w place := by
    show gcLoadRef M.algo w place = w.graph.read place
    unfold gcLoadRef
    rw [hM.readBarrier]
  size n hn hmax := (hM.rounded n hn hmax).2

end Xgc
