import Xgc.Guarantees.Leaks
import Xgc.Guarantees.Agreement

/-! Many runtimes over one allocator. They are created, used and destroyed in any order, and each is
    run by a program of its own. No runtime touches a block of another: each holds what its own program
    means, whatever the others do in between, and when all are gone the allocator has the blocks that
    it had before. -/

namespace Xgc

open Lib (Block Run)

/-! ### One runtime among others -/

section

variable {σ : Type}

/-- The same runtime over a memory that others have used in between. -/
def World.on (w : World σ) (mem : Mem) : World σ := { w with mem }

/-- An algorithm whose runtimes account for their blocks, so that there may be others. -/
structure Manager.Tenant [Inhabited σ] (M : Manager σ) : Prop where
  sound : M.Sound
  runs : M.toCollector.Runs M.Inv
  tracked_on : ∀ w m, M.tracked (w.on m) = M.tracked w
  owned_on : ∀ w m, M.owned (w.on m) = M.owned w
  create : ∀ cfg hooks mem w, mem.Owns [] → gcRuntimeCreate cfg M.algo hooks mem = some w →
    M.Inv w → Footprint w.mem (M.addrs w) mem.blocks
  step : ∀ w op w' rest, M.Inv w → M.toCollector.Step w op w' → Footprint w.mem (M.addrs w) rest →
    Footprint w'.mem (M.addrs w') rest
  destroy : ∀ w rest, M.Inv w → Footprint w.mem (M.addrs w) rest →
    Footprint (gcRuntimeDestroy M.algo w).mem [] rest ∧ (gcRuntimeDestroy M.algo w).mem.Owns []

/-- In a call whose requests are granted no plain memory is handed out. -/
theorem ClientOp.plain_eq_nil {C : Collector σ}
    {alloc : World σ → GcDescriptor → Nat → BitVec 32 → World σ × Addr}
    (halloc : C.algo.alloc = some alloc) (hpost : C.algo.postAlloc = some fun w _ => w) {w : World σ}
    {op : ClientOp} (hg : (op.perform C w).1.mem.failed = false)
    (hnull : ∀ desc size flags, op = .alloc desc size flags → sizeofHeader ≤ size →
      (alloc w desc size flags).2 = 0 → (alloc w desc size flags).1.mem.failed = true) :
    op.plain C w = [] := by
  cases op with
  | alloc desc size flags =>
    simp only [ClientOp.plain, halloc, ite_eq_right_iff]
    rintro ⟨h0, hres⟩
    exfalso
    by_cases hsize : size < sizeofHeader
    · exact hres (by rw [gcAllocTyped, if_pos hsize])
    · have hs := Nat.le_of_not_lt hsize
      have hf := hnull desc size flags rfl hs h0
      cases heq : alloc w desc size flags with
      | mk w₁ a =>
        rw [heq] at h0 hf
        obtain rfl : a = 0 := h0
        simp only [ClientOp.perform] at hg
        rcases gcAllocTyped_plain C.algo halloc hpost hs heq with ⟨-, hr⟩ | ⟨-, t, -, hr⟩ <;>
          rw [hr] at hg
        · exact Bool.noConfusion hg
        · exact Bool.noConfusion (hf.symm.trans hg)
  | storeRef | loadRef | writeBytes | setRoot | acquire | get | release | collectMinor
  | collectMajor | collectFull => rfl

variable [Inhabited σ] {M : Manager σ}

/-- What others do to the memory does not matter as long as the blocks of the runtime stay. -/
theorem Manager.Tenant.inv_on (hM : M.Tenant) {w : World σ} (h : M.Inv w) {m : Mem} (hm : m.Owns [])
    (hlive : ∀ b ∈ M.owned w, b ∈ m.blocks) : M.Inv (w.on m) := by
  have howns : m.Owns (M.owned w) := ⟨hm.apart, hm.range, hlive, h.owns.nodup, hm.noFault⟩
  exact (hM.sound.inv_reshape h w.graph m (.of_objs rfl _) h.heap h.rt.runtime howns).1

/-- A step of a program takes and gives back blocks of its own runtime. -/
theorem Manager.Tenant.progStep (hM : M.Tenant) {w w' : World σ} {names names' : List Addr}
    {op : ProgOp} {rest : List Block} (h : M.Inv w)
    (hst : ProgOp.Step M.toCollector (w, names) op (w', names'))
    (hf : Footprint w.mem (M.addrs w) rest) : Footprint w'.mem (M.addrs w') rest := by
  cases op with
  | alloc i desc size flags =>
    obtain ⟨halloc, hset, -⟩ := hst
    have h₁ := (hM.sound.lawful.step _ _ _ h halloc).1
    exact hM.step _ _ _ _ h₁ hset (hM.step _ _ _ _ h halloc hf)
  | store | write | setRoot | acquire | release | collectMinor | collectMajor | collectFull =>
    exact hM.step _ _ _ _ h hst.1 hf

end

/-! ### The two algorithms -/

/-- The generational collector has an object to give, or a request has been refused. -/
theorem gcGenAlloc_null {w : GenWorld} (h : (genManager True).Inv w) {desc : GcDescriptor}
    {size : Nat} {flags : BitVec 32} (hsize : sizeofHeader ≤ size) (hmax : size ≤ 2 ^ 32 - 8)
    (h0 : (gcGenAlloc w desc size flags).2 = 0) :
    (gcGenAlloc w desc size flags).1.mem.failed = true := by
  rcases gcGenAlloc_cases h desc hsize flags with ⟨hyoung, halloc⟩ | ⟨-, halloc⟩
  · have hpos := (withRoom_spec h hsize hyoung).1
    rw [halloc] at h0
    exact absurd (Nat.eq_zero_of_add_eq_zero_right h0) (Nat.pos_iff_ne_zero.mp hpos)
  · obtain ⟨hmin, hlt, -⟩ := alignedSize_spec hsize hmax
    rcases gcGenAllocOld_cases h desc (alignedSize size) flags with
      ⟨m, b, -, hf, -, -, heq⟩ | ⟨t, m, b, hfit, -, -, -, -, heq⟩
    · rw [halloc, heq]
      refine hf.resolve_right fun hz => ?_
      unfold sizeofHeader at hmin
      omega
    · rw [halloc, heq] at h0
      exact absurd h0 (Nat.pos_iff_ne_zero.mp hfit.1)

theorem genManager_tenant : (genManager True).Tenant where
  sound := genManager_sound
  runs := genCollector_runs
  tracked_on _ _ := rfl
  owned_on _ _ := rfl
  create cfg hooks mem w hmem hcreate h := by
    rw [← genStorage_addrs h]
    exact (Storage.Accounts.create_gen hmem hcreate).foot
  step w op w' rest h hst hf := by
    obtain ⟨hl, rfl, hg⟩ := hst
    have hplain : op.plain genCollector w = [] := by
      refine ClientOp.plain_eq_nil rfl rfl hg.1 fun desc size flags hop hsize h0 => ?_
      subst hop
      exact gcGenAlloc_null h hsize hl.2 h0
    have hdone := ((genStorage_accounts h hf).perform_gen (.inl (genManager_nursery h).toRoomy) op).foot
    rw [hplain] at hdone
    rwa [← genStorage_addrs (genManager_sound.lawful.step _ _ _ h ⟨hl, rfl, hg⟩).1]
  destroy w rest h hf :=
    ⟨(genStorage_accounts h hf).destroy_gen (.inl (genManager_nursery h).toRoomy),
      (gcRuntimeDestroy_gen h).2⟩

theorem msManager_tenant : msManager.Tenant where
  sound := msManager_sound
  runs := msCollector_runs
  tracked_on _ _ := rfl
  owned_on _ _ := rfl
  create cfg hooks mem w hmem hcreate _ := by
    rw [← msStorage_addrs]
    exact (Storage.Accounts.create_ms hmem hcreate).foot
  step w op w' rest h hst hf := by
    obtain ⟨-, rfl, hg⟩ := hst
    have hplain : op.plain msCollector w = [] := by
      refine ClientOp.plain_eq_nil rfl rfl hg.1 fun desc size flags _ _ h0 => ?_
      rcases gcMarksweepAlloc_cases h.rt.bound desc size flags with
        ⟨m, -, hf, heq⟩ | ⟨a, m, hfit, -, heq⟩ <;> rw [heq] at h0 ⊢
      · exact hf
      · exact absurd h0 (Nat.pos_iff_ne_zero.mp hfit.1)
    have hdone := ((msStorage_accounts h hf).perform_ms op).foot
    rw [hplain] at hdone
    rwa [← msStorage_addrs]
  destroy w rest h hf :=
    ⟨(msStorage_accounts h hf).destroy_ms (.inl h.rt.bound),
      (gcRuntimeDestroy_ms h).2⟩

/-! ### All of them -/

section

variable {ι : Type} {σ : ι → Type}

/-- The memory, the runtimes that there are, each with the handles that its program has acquired, and
    the threads that are attached to them. -/
structure Fleet (σ : ι → Type) where
  mem : Mem
  rts : ∀ i, Option (World (σ i) × List Addr)
  threads : List (Addr × ι)

/-- What may happen: a runtime is created or destroyed, its program takes a step, a thread is attached
    to it or detached. -/
inductive FleetOp (ι : Type) where
  | create (i : ι) (cfg : GcConfig) (hooks : GcVmHooks)
  | call (i : ι) (op : ProgOp)
  | attach (i : ι)
  | detach (thread : Addr)
  | destroy (i : ι)

/-- Nobody has been here yet. -/
def Fleet.empty (mem : Mem) : Fleet σ := { mem, rts := fun _ => none, threads := [] }

variable (M : ∀ i, Manager (σ i))

/-- The addresses of the runtime `i`, if there is one. -/
def Fleet.addrs (s : Fleet σ) (i : ι) : List Addr :=
  match s.rts i with
  | some (w, _) => (M i).addrs w
  | none => []

/-- The runtimes are in order, each holds what its program means, and they share no block; the blocks
    `outside` belong to none of them. -/
structure Fleet.Ok (outside : List Block) (states : ι → ProgState) (s : Fleet σ) : Prop where
  owns : s.mem.Owns []
  inv : ∀ i w names, s.rts i = some (w, names) → (M i).Inv (w.on s.mem)
  holds : ∀ i w names, s.rts i = some (w, names) → (M i).toCollector.Holds (states i) w names
  apart : ∀ i j, i ≠ j → List.Disjoint (s.addrs M i) (s.addrs M j)
  live : ∀ b ∈ outside, b ∈ s.mem.blocks
  nodup : (outside.map Prod.fst).Nodup
  aside : ∀ b ∈ outside, ∀ i, b.1 ∉ s.addrs M i
  covered : ∀ b ∈ s.mem.blocks, b ∈ outside ∨ ∃ i, b.1 ∈ s.addrs M i

variable {M} {outside : List Block} {states : ι → ProgState} {s : Fleet σ}

theorem Fleet.addrs_some {i : ι} {w : World (σ i)} {names : List Addr}
    (h : s.rts i = some (w, names)) : s.addrs M i = (M i).addrs w := by
  simp only [addrs, h]

theorem Fleet.addrs_none {i : ι} (h : s.rts i = none) : s.addrs M i = [] := by
  simp only [addrs, h]

namespace Fleet.Ok

theorem perm (h : s.Ok M outside states) {outside' : List Block} (hp : outside.Perm outside') :
    s.Ok M outside' states where
  owns := h.owns
  inv := h.inv
  holds := h.holds
  apart := h.apart
  live b hb := h.live b (hp.symm.subset hb)
  nodup := (hp.map Prod.fst).nodup_iff.mp h.nodup
  aside b hb := h.aside b (hp.symm.subset hb)
  covered b hb := (h.covered b hb).imp_left fun ho => hp.subset ho

variable [∀ i, Inhabited (σ i)]

/-- The blocks of the others, as the runtime `i` sees them. -/
theorem footprint (hM : ∀ i, (M i).Tenant) (h : s.Ok M outside states) (i : ι) :
    Footprint s.mem (s.addrs M i) (s.mem.blocks.filter fun b => b.1 ∉ s.addrs M i) := by
  cases hrt : s.rts i with
  | none =>
    rw [addrs_none hrt]
    simpa using Footprint.start h.owns
  | some t =>
    obtain ⟨w, names⟩ := t
    have howns := (h.inv i w names hrt).owns
    rw [(hM i).owned_on] at howns
    rw [addrs_some hrt]
    exact Footprint.of_owns howns

/-- Memory that no runtime has anything to do with is taken or given back. -/
theorem aside_step (hM : ∀ i, (M i).Tenant) (h : s.Ok M outside states) {m : Mem}
    {outside' : List Block} (hm : m.Owns []) (hnodup : (outside'.map Prod.fst).Nodup)
    (hlive : ∀ b ∈ outside', b ∈ m.blocks) (haside : ∀ b ∈ outside', ∀ i, b.1 ∉ s.addrs M i)
    (hkept : ∀ b ∈ s.mem.blocks, b ∉ outside → b ∈ m.blocks)
    (hcovered : ∀ b ∈ m.blocks, b ∈ s.mem.blocks ∧ b ∉ outside ∨ b ∈ outside')
    (threads : List (Addr × ι)) :
    Fleet.Ok M outside' states { s with mem := m, threads } where
  owns := hm
  inv i w names hi := by
    refine (hM i).inv_on (h.inv i w names hi) hm fun b hb => ?_
    have hb' : b ∈ s.mem.blocks := (h.inv i w names hi).owns.live b hb
    refine hkept b hb' fun hout => h.aside b hout i ?_
    rw [addrs_some (s := s) hi]
    rw [(hM i).owned_on] at hb
    exact List.mem_map_of_mem hb
  holds := h.holds
  apart := h.apart
  live := hlive
  nodup := hnodup
  aside := haside
  covered b hb := by
    rcases hcovered b hb with ⟨hb, hnot⟩ | hout
    · exact .inr ((h.covered b hb).resolve_left hnot)
    · exact .inl hout

theorem attach (hM : ∀ i, (M i).Tenant) (h : s.Ok M outside states)
    (hne : (gcThreadAttach s.mem).2 ≠ 0) (threads : List (Addr × ι)) :
    Fleet.Ok M (((gcThreadAttach s.mem).2, sizeofThreadContext) :: outside) states
      { s with mem := (gcThreadAttach s.mem).1, threads } := by
  rcases s.mem.malloc_cases sizeofThreadContext with hm | ⟨a, hfit, hm⟩
  · exact absurd (congrArg Prod.snd hm) hne
  · rw [gcThreadAttach, hm]
    have hnew : ∀ b ∈ s.mem.blocks, b.1 ≠ a := fun b hb => (hfit.2.2.2 b hb).1.symm
    refine h.aside_step hM (h.owns.grant hfit).none ?_ ?_ ?_ ?_ ?_ threads
    · refine List.nodup_cons.mpr ⟨fun hmem => ?_, h.nodup⟩
      obtain ⟨b, hb, hba⟩ := List.mem_map.mp hmem
      exact hnew b (h.live b hb) hba
    · rintro b hb
      rcases List.mem_cons.mp hb with rfl | hb
      · exact List.mem_cons_self
      · exact List.mem_cons_of_mem _ (h.live b hb)
    · rintro b hb i
      rcases List.mem_cons.mp hb with rfl | hb
      · exact (h.footprint hM i).fresh hfit
      · exact h.aside b hb i
    · exact fun b hb _ => List.mem_cons_of_mem _ hb
    · rintro b hb
      rcases List.mem_cons.mp hb with rfl | hb
      · exact .inr List.mem_cons_self
      · by_cases hout : b ∈ outside
        · exact .inr (List.mem_cons_of_mem _ hout)
        · exact .inl ⟨hb, hout⟩

theorem detach (hM : ∀ i, (M i).Tenant) {thread : Addr}
    (h : s.Ok M ((thread, sizeofThreadContext) :: outside) states) (threads : List (Addr × ι)) :
    Fleet.Ok M outside states { s with mem := gcThreadDetach s.mem thread, threads } := by
  have hlive := h.live _ List.mem_cons_self
  have hne : thread ≠ 0 := Nat.pos_iff_ne_zero.mp (h.owns.range _ hlive).1
  have hnodup := List.nodup_cons.mp h.nodup
  have hother : ∀ b ∈ outside, b.1 ≠ thread := fun b hb he =>
    hnodup.1 (List.mem_map.mpr ⟨b, hb, he⟩)
  have howns : s.mem.Owns [(thread, sizeofThreadContext)] :=
    ⟨h.owns.apart, h.owns.range, fun b hb => List.mem_singleton.mp hb ▸ hlive,
      List.nodup_singleton _, h.owns.noFault⟩
  have hfree := Mem.free_of_mem hne hlive
  refine h.aside_step hM howns.free hnodup.2 ?_ ?_ ?_ ?_ threads
  · exact fun b hb => Mem.mem_free (h.live b (List.mem_cons_of_mem _ hb)) (hother b hb)
  · exact fun b hb => h.aside b (List.mem_cons_of_mem _ hb)
  · intro b hb hout
    refine Mem.mem_free hb fun he => hout ?_
    have hbt : b = (thread, sizeofThreadContext) := by
      by_contra hbne
      exact (h.owns.apart.forall hb hlive hbne).1 he
    rw [hbt]
    exact List.mem_cons_self
  · intro b hb
    change b ∈ (s.mem.free thread).blocks at hb
    rw [hfree] at hb
    obtain ⟨hb, hbne⟩ := List.mem_filter.mp hb
    by_cases hout : b ∈ outside
    · exact .inr hout
    · refine .inl ⟨hb, fun hmem => ?_⟩
      rcases List.mem_cons.mp hmem with rfl | hmem
      · simp at hbne
      · exact hout hmem

end Fleet.Ok

/-! ### Runs -/

variable [DecidableEq ι]

/-- Another runtime, or none, in place of the one called `i`. -/
def Fleet.put (s : Fleet σ) (i : ι) (rt : Option (World (σ i) × List Addr)) (mem : Mem) : Fleet σ :=
  { s with mem, rts := Function.update s.rts i rt }

theorem Fleet.addrs_put_some (s : Fleet σ) (i : ι) (w : World (σ i)) (names : List Addr) (m : Mem) :
    (s.put i (some (w, names)) m).addrs M i = (M i).addrs w :=
  addrs_some (Function.update_self ..)

theorem Fleet.addrs_put_none (s : Fleet σ) (i : ι) (m : Mem) :
    (s.put i none m).addrs M i = [] :=
  addrs_none (Function.update_self ..)

variable [∀ i, Inhabited (σ i)]

/-- What the runtime `i` does to its own blocks leaves the others in order. -/
theorem Fleet.Ok.put (hM : ∀ i, (M i).Tenant) (h : s.Ok M outside states) {i : ι} {m : Mem}
    {rt : Option (World (σ i) × List Addr)} {state : ProgState} (hm : m.Owns [])
    (hf : Footprint m ((s.put i rt m).addrs M i)
      (s.mem.blocks.filter fun b => b.1 ∉ s.addrs M i))
    (hinv : ∀ w names, rt = some (w, names) → (M i).Inv (w.on m))
    (hholds : ∀ w names, rt = some (w, names) → (M i).toCollector.Holds state w names) :
    (s.put i rt m).Ok M outside (Function.update states i state) := by
  have hother : ∀ {j}, j ≠ i → (s.put i rt m).rts j = s.rts j := fun hj => by
    simp only [Fleet.put, Function.update_of_ne hj]
  have haddrs : ∀ {j}, j ≠ i → (s.put i rt m).addrs M j = s.addrs M j := fun hj => by
    simp only [addrs, hother hj]
  have hself : (s.put i rt m).rts i = rt := Function.update_self ..
  -- a block that another runtime uses is one of the others
  have hrest : ∀ {b : Block}, b ∈ s.mem.blocks → b.1 ∉ s.addrs M i →
      b ∈ s.mem.blocks.filter fun b => b.1 ∉ s.addrs M i := fun hb hna =>
    List.mem_filter.mpr ⟨hb, by simpa using hna⟩
  have hused : ∀ {j}, j ≠ i → ∀ a ∈ s.addrs M j, ∃ n,
      (a, n) ∈ s.mem.blocks.filter fun b => b.1 ∉ s.addrs M i := by
    intro j hj a ha
    obtain ⟨n, hn⟩ := (h.footprint hM j).live ha
    exact ⟨n, hrest hn fun hai => h.apart i j hj.symm hai ha⟩
  have hdisjoint : ∀ {j}, j ≠ i → List.Disjoint ((s.put i rt m).addrs M i) (s.addrs M j) := by
    intro j hj a hai haj
    obtain ⟨n, hn⟩ := hused hj a haj
    exact hf.rest_apart _ hn hai
  refine ⟨hm, fun j w names hj => ?_, fun j w names hj => ?_, fun j k hjk => ?_, fun b hb => ?_,
    h.nodup, fun b hb j => ?_, fun b hb => ?_⟩
  · rcases eq_or_ne j i with rfl | hne
    · exact hinv w names (hself.symm.trans hj)
    · rw [hother hne] at hj
      refine (hM j).inv_on (h.inv j w names hj) hm fun b hb => ?_
      rw [(hM j).owned_on] at hb
      have hlive := (h.inv j w names hj).owns.live b (by rwa [(hM j).owned_on])
      have haddr : b.1 ∈ s.addrs M j := by
        rw [addrs_some hj]
        exact List.mem_map_of_mem hb
      exact hf.rest_live b (hrest hlive fun hai => h.apart i j hne.symm hai haddr)
  · rcases eq_or_ne j i with rfl | hne
    · rw [Function.update_self]
      exact hholds w names (hself.symm.trans hj)
    · rw [Function.update_of_ne hne]
      rw [hother hne] at hj
      exact h.holds j w names hj
  · rcases eq_or_ne j i with rfl | hj
    · rw [haddrs hjk.symm]
      exact hdisjoint hjk.symm
    · rw [haddrs hj]
      rcases eq_or_ne k i with rfl | hk
      · exact (hdisjoint hj).symm
      · rw [haddrs hk]
        exact h.apart j k hjk
  · exact hf.rest_live b (hrest (h.live b hb) (h.aside b hb i))
  · rcases eq_or_ne j i with rfl | hj
    · exact hf.rest_apart b (hrest (h.live b hb) (h.aside b hb j))
    · rw [haddrs hj]
      exact h.aside b hb j
  · obtain ⟨l, hl, hblocks⟩ := hf.split
    rcases List.mem_append.mp (hblocks.subset hb) with hb | hb
    · exact .inr ⟨i, hl.subset (List.mem_map_of_mem hb)⟩
    · obtain ⟨hlive, hna⟩ := List.mem_filter.mp hb
      refine (h.covered b hlive).imp_right ?_
      rintro ⟨j, hj⟩
      have hne : j ≠ i := by
        rintro rfl
        simp [hj] at hna
      exact ⟨j, by rwa [haddrs hne]⟩

/-- The programs that the runtimes are running, after one more event. -/
def FleetOp.extend (programs : ι → List ProgOp) : FleetOp ι → ι → List ProgOp
  | .create i _ _ => Function.update programs i []
  | .call i op => Function.update programs i (programs i ++ [op])
  | .attach _ | .detach _ | .destroy _ => programs

/-- The program that each runtime is running: its own calls since it was created. -/
def programs (ops : List (FleetOp ι)) : ι → List ProgOp := ops.foldl FleetOp.extend fun _ => []

/-- What a program means. -/
def meaning (program : List ProgOp) : ProgState := program.foldl ProgState.step .init

/-- One event. Clients are well behaved, use only runtimes that exist, detach threads once and before
    the runtime is destroyed; requests are granted. -/
def Fleet.Step (M : ∀ i, Manager (σ i)) (s : Fleet σ) (op : FleetOp ι) (s' : Fleet σ) : Prop :=
  match op with
  | .create i cfg hooks => s.rts i = none ∧ cfg.Ok ∧ hooks.Ok ∧ ∃ w,
      gcRuntimeCreate cfg (M i).algo hooks s.mem = some w ∧ w.Granted ∧
        s' = s.put i (some (w, [])) w.mem
  | .call i op => ∃ w names w' names', s.rts i = some (w, names) ∧
      ProgOp.Step (M i).toCollector (w.on s.mem, names) op (w', names') ∧
        s' = s.put i (some (w', names')) w'.mem
  | .attach i => (s.rts i).isSome ∧ (gcThreadAttach s.mem).2 ≠ 0 ∧
      s' = { s with mem := (gcThreadAttach s.mem).1
                    threads := ((gcThreadAttach s.mem).2, i) :: s.threads }
  | .detach thread => ∃ i, (thread, i) ∈ s.threads ∧
      s' = { s with mem := gcThreadDetach s.mem thread
                    threads := s.threads.erase (thread, i) }
  | .destroy i => (∀ t ∈ s.threads, t.2 ≠ i) ∧ ∃ w names, s.rts i = some (w, names) ∧
      s' = s.put i none (gcRuntimeDestroy (M i).algo (w.on s.mem)).mem

/-- Each event leaves the runtimes in order, and takes the programs one step further. -/
theorem Fleet.Ok.step (hM : ∀ i, (M i).Tenant) {s' : Fleet σ} {progs : ι → List ProgOp}
    {op : FleetOp ι} (h : s.Ok M (threadBlocks (s.threads.map Prod.fst) ++ outside) (meaning ∘ progs))
    (hst : Fleet.Step M s op s') :
    s'.Ok M (threadBlocks (s'.threads.map Prod.fst) ++ outside) (meaning ∘ op.extend progs) := by
  cases op with
  | create i cfg hooks =>
    obtain ⟨hnone, hcfg, hhooks, w, hcreate, hg, rfl⟩ := hst
    have hstarts : (M i).Starts w := ⟨cfg, hooks, s.mem, hcfg, hhooks, h.owns, hcreate, hg⟩
    have hinv := (hM i).sound.start w hstarts
    have hf := (hM i).create cfg hooks s.mem w h.owns hcreate hinv
    have hold := h.footprint hM i
    rw [FleetOp.extend, Function.comp_update]
    refine h.put hM hinv.owns.none ?_ ?_ ?_
    · rw [addrs_put_some, addrs_none hnone]
      simpa using hf
    · rintro w' names' hw'
      obtain ⟨rfl, -⟩ := Prod.mk.inj (Option.some.inj hw')
      exact hinv
    · rintro w' names' hw'
      obtain ⟨rfl, rfl⟩ := Prod.mk.inj (Option.some.inj hw')
      exact (hM i).runs.start hstarts
  | call i op =>
    obtain ⟨w, names, w', names', hi, hst, rfl⟩ := hst
    have hinv := h.inv i w names hi
    have hholds : (M i).toCollector.Holds (meaning (progs i)) (w.on s.mem) names := by
      unfold Collector.Holds
      rw [(hM i).tracked_on]
      exact h.holds i w names hi
    obtain ⟨hinv', hholds'⟩ := (hM i).runs.step hinv hholds hst
    have hold := h.footprint hM i
    rw [addrs_some hi] at hold
    have haddrs : (M i).addrs (w.on s.mem) = (M i).addrs w :=
      congrArg (List.map Prod.fst) ((hM i).owned_on w s.mem)
    rw [← haddrs] at hold
    have hf := (hM i).progStep hinv hst hold
    rw [FleetOp.extend, Function.comp_update]
    refine h.put hM hinv'.owns.none ?_ ?_ ?_
    · rw [addrs_put_some, addrs_some hi, ← haddrs]
      exact hf
    · rintro w₁ names₁ hw₁
      obtain ⟨rfl, -⟩ := Prod.mk.inj (Option.some.inj hw₁)
      exact hinv'
    · rintro w₁ names₁ hw₁
      obtain ⟨rfl, rfl⟩ := Prod.mk.inj (Option.some.inj hw₁)
      rw [meaning, List.foldl_append]
      exact hholds'
  | attach i =>
    obtain ⟨-, hne, rfl⟩ := hst
    exact h.attach hM hne _
  | detach thread =>
    obtain ⟨i, hmem, rfl⟩ := hst
    refine Fleet.Ok.detach hM (h.perm ?_) _
    exact (((List.perm_cons_erase hmem).map Prod.fst).map _).append_right outside
  | destroy i =>
    obtain ⟨-, w, names, hi, rfl⟩ := hst
    have hinv := h.inv i w names hi
    have hold := h.footprint hM i
    have haddrs : (M i).addrs (w.on s.mem) = (M i).addrs w :=
      congrArg (List.map Prod.fst) ((hM i).owned_on w s.mem)
    rw [addrs_some hi, ← haddrs] at hold
    obtain ⟨hf, howns⟩ := (hM i).destroy _ _ hinv hold
    have hsame : Function.update (meaning ∘ progs) i (meaning (progs i)) = meaning ∘ progs :=
      Function.update_eq_self i _
    rw [FleetOp.extend, ← hsame]
    refine h.put hM howns ?_ ?_ ?_
    · rw [addrs_put_none, addrs_some hi, ← haddrs]
      exact hf
    · rintro w' names' hw'
      exact absurd hw' (Option.some_ne_none _).symm
    · rintro w' names' hw'
      exact absurd hw' (Option.some_ne_none _).symm

/-- In every run the runtimes are in order, and each holds what its own program means. -/
theorem Fleet.ok_run (hM : ∀ i, (M i).Tenant) {mem : Mem} (hmem : mem.Owns [])
    {ops : List (FleetOp ι)} (hrun : Run (Fleet.Step M) (.empty mem) ops s) :
    s.Ok M (threadBlocks (s.threads.map Prod.fst) ++ mem.blocks) (meaning ∘ programs ops) := by
  generalize hstart : Fleet.empty mem = s₀ at hrun
  induction hrun with
  | nil =>
    subst hstart
    refine ⟨hmem, ?_, ?_, ?_, fun b hb => hb, (Footprint.start hmem).nodup, ?_, fun b hb => .inl hb⟩
    · intro i w names hi
      exact absurd hi (Option.some_ne_none _).symm
    · intro i w names hi
      exact absurd hi (Option.some_ne_none _).symm
    · intro i j _ a ha
      exact absurd ha List.not_mem_nil
    · intro b _ i
      exact List.not_mem_nil
  | snoc _ hst ih =>
    rw [programs, List.foldl_append]
    exact ih.step hM hst

/-- The threads are attached to runtimes that exist. -/
theorem Fleet.attached_run {mem : Mem} {ops : List (FleetOp ι)}
    (hrun : Run (Fleet.Step M) (.empty mem) ops s) : ∀ t ∈ s.threads, (s.rts t.2).isSome := by
  have hput : ∀ {s : Fleet σ} {i rt m}, (∀ t ∈ s.threads, (s.rts t.2).isSome) →
      (∀ t ∈ s.threads, t.2 = i → rt.isSome) →
      ∀ t ∈ (s.put i rt m).threads, ((s.put i rt m).rts t.2).isSome := by
    intro s i rt m h hi t ht
    by_cases hti : t.2 = i
    · obtain ⟨a, j⟩ := t
      obtain rfl : j = i := hti
      simpa [Fleet.put] using hi _ ht rfl
    · simpa only [Fleet.put, Function.update_of_ne hti] using h t ht
  refine hrun.invariant (P := fun s => ∀ t ∈ s.threads, (s.rts t.2).isSome) ?_ ?_
  · intro s op s' h hst
    cases op with
    | create i cfg hooks =>
      obtain ⟨-, -, -, w, -, -, rfl⟩ := hst
      exact hput h fun _ _ _ => rfl
    | call i op =>
      obtain ⟨w, names, w', names', -, -, rfl⟩ := hst
      exact hput h fun _ _ _ => rfl
    | attach i =>
      obtain ⟨hi, -, rfl⟩ := hst
      intro t ht
      rcases List.mem_cons.mp ht with rfl | ht
      · exact hi
      · exact h t ht
    | detach thread =>
      obtain ⟨i, -, rfl⟩ := hst
      exact fun t ht => h t (List.mem_of_mem_erase ht)
    | destroy i =>
      obtain ⟨hnone, w, names, -, rfl⟩ := hst
      exact hput h fun t ht hti => absurd hti (hnone t ht)
  · exact fun t ht => absurd ht List.not_mem_nil

end

/-- The algorithms that reclaim objects. -/
inductive Reclaimer where
  | genCopyMs
  | marksweepStw

namespace Reclaimer

/-- The state of the algorithm. -/
def State : Reclaimer → Type
  | genCopyMs => GenState
  | marksweepStw => MsState

instance : ∀ k : Reclaimer, Inhabited k.State
  | genCopyMs => inferInstanceAs (Inhabited GenState)
  | marksweepStw => inferInstanceAs (Inhabited MsState)

/-- The collector and its invariant. -/
def manager : ∀ k : Reclaimer, Manager k.State
  | genCopyMs => genManager True
  | marksweepStw => msManager

theorem tenant : ∀ k : Reclaimer, k.manager.Tenant
  | genCopyMs => genManager_tenant
  | marksweepStw => msManager_tenant

end Reclaimer

section

variable {ι : Type} [DecidableEq ι] {kind : ι → Reclaimer} {mem : Mem} {ops : List (FleetOp ι)}
  {s : Fleet fun i => (kind i).State}

/-- However runtimes of either algorithm are created, used by programs and destroyed next to each
    other, each is in order and holds what its own program means, no two of them share a block,
    nothing is freed twice, and once all are gone the blocks are those from before. -/
theorem runtimes_isolated (hmem : mem.Owns [])
    (hrun : Run (Fleet.Step fun i => (kind i).manager) (.empty mem) ops s) :
    (∀ i w names, s.rts i = some (w, names) → (kind i).manager.Inv (w.on s.mem) ∧
      (kind i).manager.toCollector.Holds (meaning (programs ops i)) w names) ∧
    (∀ i j, i ≠ j → List.Disjoint (s.addrs (fun i => (kind i).manager) i)
      (s.addrs (fun i => (kind i).manager) j)) ∧
    s.mem.fault = false ∧
    ((∀ i, s.rts i = none) → s.mem.blocks.Perm mem.blocks) := by
  have hok := Fleet.ok_run (fun i => (kind i).tenant) hmem hrun
  refine ⟨fun i w names hi => ⟨hok.inv i w names hi, hok.holds i w names hi⟩, hok.apart,
    hok.owns.noFault, fun hnone => ?_⟩
  have hthreads : s.threads = [] := by
    refine List.eq_nil_iff_forall_not_mem.mpr fun t ht => ?_
    have hsome := Fleet.attached_run hrun t ht
    rw [hnone] at hsome
    exact absurd hsome Bool.false_ne_true
  have hnodup := hok.nodup
  rw [hthreads] at hok hnodup
  have hblocks : ∀ b, b ∈ s.mem.blocks ↔ b ∈ mem.blocks := by
    refine fun b => ⟨fun hb => (hok.covered b hb).elim id ?_, hok.live b⟩
    rintro ⟨i, hi⟩
    rw [Fleet.addrs_none (hnone i)] at hi
    exact absurd hi List.not_mem_nil
  exact (List.perm_ext_iff_of_nodup (Footprint.start hok.owns).nodup.of_map
    (Footprint.start hmem).nodup.of_map).mpr hblocks

/-- The steps of a program that are not collections. -/
def ProgOp.computes : ProgOp → Bool
  | .collectMinor | .collectMajor | .collectFull => false
  | .alloc .. | .store .. | .write .. | .setRoot .. | .acquire .. | .release _ => true

/-- Collections mean nothing. -/
theorem meaning_computes (program : List ProgOp) :
    meaning (program.filter ProgOp.computes) = meaning program := by
  have hfold : ∀ (p : List ProgOp) (t : ProgState),
      (p.filter ProgOp.computes).foldl ProgState.step t = p.foldl ProgState.step t := by
    intro p
    induction p with
    | nil => exact fun _ => rfl
    | cons op p ih =>
      intro t
      cases op with
      | collectMinor | collectMajor | collectFull => exact ih t
      | alloc | store | write | setRoot | acquire | release => exact ih _
  exact hfold program .init

/-- What a program gets at depends on its own steps only: not on the algorithm, not on the
    configuration or the allocator, not on when it collects, and not on the other runtimes. -/
theorem program_decides {ι' : Type} [DecidableEq ι'] {kind' : ι' → Reclaimer} {mem' : Mem}
    {ops' : List (FleetOp ι')} {s' : Fleet fun i => (kind' i).State} (hmem : mem.Owns [])
    (hmem' : mem'.Owns []) (hrun : Run (Fleet.Step fun i => (kind i).manager) (.empty mem) ops s)
    (hrun' : Run (Fleet.Step fun i => (kind' i).manager) (.empty mem') ops' s')
    {i : ι} {j : ι'} {w : World (kind i).State} {v : World (kind' j).State} {names names' : List Addr}
    (hi : s.rts i = some (w, names)) (hj : s'.rts j = some (v, names'))
    (hsame : (programs ops i).filter ProgOp.computes = (programs ops' j).filter ProgOp.computes) :
    ∃ φ, Agree (kind i).manager.rounded (kind' j).manager.rounded w.graph v.graph names names' φ := by
  have hok := Fleet.ok_run (fun i => (kind i).tenant) hmem hrun
  have hok' := Fleet.ok_run (fun j => (kind' j).tenant) hmem' hrun'
  have hholds := hok.holds i w names hi
  have hholds' := hok'.holds j v names' hj
  rw [Function.comp_apply, ← meaning_computes] at hholds hholds'
  rw [← hsame] at hholds'
  have hheap := (hok.inv i w names hi).heap
  have hheap' := (hok'.inv j v names' hj).heap
  rw [(kind i).tenant.tracked_on] at hheap
  rw [(kind' j).tenant.tracked_on] at hheap'
  exact exists_agree hheap hheap' hholds hholds'

end

/-! ### A sample -/

/-- A runtime of each kind. -/
def samplePair : Bool → Reclaimer
  | true => .genCopyMs
  | false => .marksweepStw

/-- A runtime of mark-sweep that is created next to `genStart`. -/
def msNext : MsWorld :=
  (gcRuntimeCreate (sampleConfig 0) gcMarksweepStwVtable (sampleHooks 2) genStart.mem).get
    (by decide +kernel)

/-- Both runtimes put a cell into a root slot, the one after the other. -/
def genThen : GenWorld := genCollector.rootCell 0 (genStart.on msNext.mem)

@[inherit_doc genThen]
def msThen : MsWorld := msCollector.rootCell 0 (msNext.on genThen.mem)

def sampleEvents : List (FleetOp Bool) :=
  [.create true (sampleConfig 128) (sampleHooks 2), .create false (sampleConfig 0) (sampleHooks 2),
    .call true (.alloc 0 cell 24 0), .call false (.alloc 0 cell 24 0)]

/-- The two runtimes. -/
def sampleFleet : Fleet fun i => (samplePair i).State :=
  ((((Fleet.empty (sampleMem fun _ => false)).put true (some (genStart, [])) genStart.mem).put false
    (some (msNext, [])) msNext.mem).put true (some (genThen, [])) genThen.mem).put false
      (some (msThen, [])) msThen.mem

theorem sampleFleet_run : Run (Fleet.Step fun i => (samplePair i).manager)
    (.empty (sampleMem fun _ => false)) sampleEvents sampleFleet := by
  have h0 : 0 < 2 ^ 64 := by decide
  have hgen : (sampleConfig 128).Ok := ⟨h0, h0, by decide, h0, h0⟩
  have hms : (sampleConfig 0).Ok := ⟨h0, h0, h0, h0, h0⟩
  have hstart : genStart.Granted := by decide +kernel
  have hnext : msNext.Granted := by decide +kernel
  let s₁ : Fleet fun i => (samplePair i).State :=
    (Fleet.empty (sampleMem fun _ => false)).put true (some (genStart, [])) genStart.mem
  let s₂ := s₁.put false (some (msNext, [])) msNext.mem
  let s₃ := s₂.put true (some (genThen, [])) genThen.mem
  have h₁ : Fleet.Step (fun i => (samplePair i).manager) (.empty (sampleMem fun _ => false))
      (.create true (sampleConfig 128) (sampleHooks 2)) s₁ :=
    ⟨rfl, hgen, sampleHooks_ok 2, genStart, (Option.some_get _).symm, hstart, rfl⟩
  have h₂ : Fleet.Step (fun i => (samplePair i).manager) s₁
      (.create false (sampleConfig 0) (sampleHooks 2)) s₂ :=
    ⟨rfl, hms, sampleHooks_ok 2, msNext, (Option.some_get _).symm, hnext, rfl⟩
  have h₃ : Fleet.Step (fun i => (samplePair i).manager) s₂ (.call true (.alloc 0 cell 24 0)) s₃ :=
    ⟨genStart, [], genThen, [], rfl, .rootCell (by decide) (by decide +kernel) (by decide +kernel)
      (by decide +kernel), rfl⟩
  have h₄ : Fleet.Step (fun i => (samplePair i).manager) s₃ (.call false (.alloc 0 cell 24 0))
      sampleFleet :=
    ⟨msNext, [], msThen, [], rfl, .rootCell (by decide) (by decide +kernel) (by decide +kernel)
      (by decide +kernel), rfl⟩
  exact ((((Run.nil _).snoc h₁).snoc h₂).snoc h₃).snoc h₄

/-- After both have been destroyed nothing is left. -/
theorem runtimes_isolated_sample : (gcRuntimeDestroy gcMarksweepStwVtable (msThen.on
    (gcRuntimeDestroy gcGenCopyMsVtable (genThen.on msThen.mem)).mem)).mem.blocks = [] := by
  let s₁ : Fleet fun i => (samplePair i).State :=
    sampleFleet.put true none (gcRuntimeDestroy gcGenCopyMsVtable (genThen.on msThen.mem)).mem
  let s₂ := s₁.put false none (gcRuntimeDestroy gcMarksweepStwVtable (msThen.on s₁.mem)).mem
  have h₁ : Fleet.Step (fun i => (samplePair i).manager) sampleFleet (.destroy true) s₁ :=
    ⟨fun t ht => absurd ht List.not_mem_nil, genThen, [], rfl, rfl⟩
  have h₂ : Fleet.Step (fun i => (samplePair i).manager) s₁ (.destroy false) s₂ :=
    ⟨fun t ht => absurd ht List.not_mem_nil, msThen, [], rfl, rfl⟩
  have hrun := (sampleFleet_run.snoc h₁).snoc h₂
  have hdone := (runtimes_isolated (sampleMem_owns fun _ => false) hrun).2.2.2
  refine List.perm_nil.mp (hdone fun i => ?_)
  cases i <;> rfl

/-- The two programs are the same, so the two cells are. -/
theorem program_decides_sample :
    ∃ φ, Agree alignedSize id genThen.graph msThen.graph [] [] φ :=
  have hgen : sampleFleet.rts true = some (genThen, []) := rfl
  have hms : sampleFleet.rts false = some (msThen, []) := rfl
  program_decides (sampleMem_owns fun _ => false) (sampleMem_owns fun _ => false) sampleFleet_run
    sampleFleet_run hgen hms rfl

end Xgc
