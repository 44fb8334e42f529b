import Xgc.Heap.Manager
import Xgc.Algo.MinorRun

/-! Whose the live blocks of the allocator are. `Footprint m own rest` says that the blocks at the
    addresses `own` and the blocks `rest` are live, each once, and that there are no others: what a
    runtime has taken is accounted for, and what it has not taken is as it was before. -/

namespace Xgc

open Lib (Block lookup mem_of_lookup)

theorem Mem.Owns.none {m : Mem} {l : List Block} (h : m.Owns l) : m.Owns [] :=
  ⟨h.apart, h.range, fun _ hb => absurd hb List.not_mem_nil, List.nodup_nil, h.noFault⟩

/-- The live blocks are those at the addresses `own` and those in `rest`. -/
structure Footprint (m : Mem) (own : List Addr) (rest : List Block) : Prop where
  split : ∃ l, (l.map Prod.fst).Perm own ∧ m.blocks.Perm (l ++ rest)
  nodup : (m.blocks.map Prod.fst).Nodup
  pos : ∀ b ∈ m.blocks, b.1 ≠ 0

namespace Footprint

variable {m m' : Mem} {own own' : List Addr} {rest : List Block}

/-- Before the first request all blocks are those of others. -/
theorem start (h : m.Owns []) : Footprint m [] m.blocks where
  split := ⟨[], .nil, .refl _⟩
  nodup := List.pairwise_map.mpr (h.apart.imp And.left)
  pos b hb := Nat.pos_iff_ne_zero.mp (h.range b hb).1

theorem congr (h : Footprint m own rest) (hb : m'.blocks = m.blocks) : Footprint m' own rest where
  split := by rw [hb]; exact h.split
  nodup := by rw [hb]; exact h.nodup
  pos := by rw [hb]; exact h.pos

theorem perm (h : Footprint m own rest) (hp : own.Perm own') : Footprint m own' rest := by
  obtain ⟨l, hl, hm⟩ := h.split
  exact ⟨⟨l, hl.trans hp, hm⟩, h.nodup, h.pos⟩

theorem perm_rest (h : Footprint m own rest) {rest' : List Block} (hp : rest.Perm rest') :
    Footprint m own rest' := by
  obtain ⟨l, hl, hm⟩ := h.split
  exact ⟨⟨l, hl, hm.trans (hp.append_left l)⟩, h.nodup, h.pos⟩

/-- The addresses in use are distinct. -/
theorem own_nodup (h : Footprint m own rest) : own.Nodup := by
  obtain ⟨l, hl, hm⟩ := h.split
  have hn := (hm.map Prod.fst).nodup_iff.mp h.nodup
  rw [List.map_append] at hn
  exact hl.nodup_iff.mp (List.nodup_append.mp hn).1

/-- Each address in use is that of a live block. -/
theorem live (h : Footprint m own rest) {a : Addr} (ha : a ∈ own) : ∃ n, (a, n) ∈ m.blocks := by
  obtain ⟨l, hl, hm⟩ := h.split
  obtain ⟨⟨b, n⟩, hb, rfl⟩ := List.mem_map.mp (hl.symm.subset ha)
  exact ⟨n, hm.symm.subset (List.mem_append_left _ hb)⟩

theorem ne_zero (h : Footprint m own rest) {a : Addr} (ha : a ∈ own) : a ≠ 0 := by
  obtain ⟨n, hn⟩ := h.live ha
  exact h.pos _ hn

/-- What fits is not in use. -/
theorem fresh (h : Footprint m own rest) {a n : Nat} (hf : m.Fits a n) : a ∉ own := by
  intro ha
  obtain ⟨k, hk⟩ := h.live ha
  exact (hf.2.2.2 _ hk).1 rfl

/-- A granted block is live, and apart from the others. -/
theorem granted (h : Footprint m own rest) {a n : Nat} (hf : m.Fits a n)
    (hb : m'.blocks = (a, n) :: m.blocks) : Footprint m' (a :: own) rest := by
  obtain ⟨l, hl, hm⟩ := h.split
  refine ⟨⟨(a, n) :: l, hl.cons a, by rw [hb]; exact hm.cons _⟩, ?_, ?_⟩
  · rw [hb, List.map_cons, List.nodup_cons]
    refine ⟨fun hmem => ?_, h.nodup⟩
    obtain ⟨b, hb, hba⟩ := List.mem_map.mp hmem
    exact (hf.2.2.2 b hb).1 hba.symm
  · intro b hb'
    rw [hb] at hb'
    rcases List.mem_cons.mp hb' with rfl | hb'
    · exact Nat.pos_iff_ne_zero.mp hf.1
    · exact h.pos b hb'

theorem grant (h : Footprint m own rest) {a n : Nat} (hf : m.Fits a n) :
    Footprint (m.grant a n) (a :: own) rest :=
  h.granted hf rfl

/-- A granted block may also be handed out: it is one of the others then. -/
theorem handOut (h : Footprint m own rest) {a n : Nat} (hf : m.Fits a n) :
    Footprint (m.grant a n) own ((a, n) :: rest) := by
  obtain ⟨l, hl, hm⟩ := h.split
  have hg := h.grant hf
  exact ⟨⟨l, hl, (hm.cons (a, n)).trans List.perm_middle.symm⟩, hg.nodup, hg.pos⟩

/-- A block in use can be freed; what else is live stays so. -/
theorem free {a : Addr} (h : Footprint m (a :: own) rest) : Footprint (m.free a) own rest := by
  obtain ⟨l, hl, hm⟩ := h.split
  obtain ⟨⟨b, n⟩, hb, hba⟩ := List.mem_map.mp (hl.symm.subset List.mem_cons_self)
  obtain rfl : b = a := hba
  obtain ⟨l', hl'⟩ : ∃ l', l.Perm ((b, n) :: l') := ⟨_, List.perm_cons_erase hb⟩
  have hblocks : m.blocks.Perm ((b, n) :: (l' ++ rest)) := hm.trans (hl'.append_right rest)
  have hnodup := (hblocks.map Prod.fst).nodup_iff.mp h.nodup
  rw [List.map_cons, List.nodup_cons] at hnodup
  have hfree := Mem.free_of_mem (h.ne_zero List.mem_cons_self)
    (hblocks.symm.subset List.mem_cons_self)
  have hothers : (l' ++ rest).filter (fun c => c.1 ≠ b) = l' ++ rest := by
    rw [List.filter_eq_self]
    intro c hc
    have hne : c.1 ≠ b := fun he => hnodup.1 (List.mem_map.mpr ⟨c, hc, he⟩)
    simpa using hne
  have hkept : (m.free b).blocks.Perm (l' ++ rest) := by
    rw [hfree, ← hothers]
    refine (hblocks.filter _).trans ?_
    rw [List.filter_cons_of_neg (by simp)]
  refine ⟨⟨l', ((hl'.map Prod.fst).symm.trans hl).cons_inv, hkept⟩, ?_, fun c hc => ?_⟩
  · exact (hkept.map Prod.fst).nodup_iff.mpr hnodup.2
  · exact h.pos c (hblocks.symm.subset (List.mem_cons_of_mem _ (hkept.subset hc)))

/-- Freeing what is in use leaves the blocks of others. -/
theorem freeAll : ∀ (as : List Addr) {m : Mem}, Footprint m (as ++ own) rest →
    Footprint (as.foldl Mem.free m) own rest
  | [], _, h => h
  | _ :: as, _, h => freeAll as h.free

/-- One of the other blocks comes into use. -/
theorem take {a n : Nat} (h : Footprint m own ((a, n) :: rest)) : Footprint m (a :: own) rest := by
  obtain ⟨l, hl, hm⟩ := h.split
  exact ⟨⟨(a, n) :: l, hl.cons a, hm.trans List.perm_middle⟩, h.nodup, h.pos⟩

/-- The blocks of others are live. -/
theorem rest_live (h : Footprint m own rest) : ∀ b ∈ rest, b ∈ m.blocks := by
  obtain ⟨l, -, hm⟩ := h.split
  exact fun b hb => hm.symm.subset (List.mem_append_right _ hb)

/-- The blocks of others are not at addresses in use. -/
theorem rest_apart (h : Footprint m own rest) : ∀ b ∈ rest, b.1 ∉ own := by
  obtain ⟨l, hl, hm⟩ := h.split
  have hn := (hm.map Prod.fst).nodup_iff.mp h.nodup
  rw [List.map_append] at hn
  intro b hb hmem
  exact (List.nodup_append.mp hn).2.2 b.1 (hl.symm.subset hmem) b.1 (List.mem_map_of_mem hb) rfl

/-- Where nothing is in use, only the blocks of others are live. -/
theorem blocks (h : Footprint m [] rest) : m.blocks.Perm rest := by
  obtain ⟨l, hl, hm⟩ := h.split
  obtain rfl : l = [] := List.map_eq_nil_iff.mp (List.perm_nil.mp hl)
  exact hm

/-- The blocks at given addresses, and the others. -/
theorem of_owns {l : List Block} (h : m.Owns l) :
    Footprint m (l.map Prod.fst) (m.blocks.filter fun b => b.1 ∉ l.map Prod.fst) := by
  have hstart := Footprint.start h.none
  refine ⟨⟨m.blocks.filter fun b => b.1 ∈ l.map Prod.fst, ?_, ?_⟩, hstart.nodup, hstart.pos⟩
  · refine (List.perm_ext_iff_of_nodup ?_ h.nodup).mpr fun a => ?_
    · exact hstart.nodup.sublist (List.filter_sublist.map _)
    · simp only [List.mem_map, List.mem_filter, decide_eq_true_eq]
      constructor
      · rintro ⟨b, ⟨-, c, hc, hcb⟩, rfl⟩
        exact ⟨c, hc, hcb⟩
      · rintro ⟨b, hb, rfl⟩
        exact ⟨b, ⟨h.live b hb, b, hb, rfl⟩, rfl⟩
  · have hsplit := List.filter_append_perm (fun b : Block => decide (b.1 ∈ l.map Prod.fst)) m.blocks
    simpa using hsplit.symm

/-- Where the sizes of the blocks in use are known, so are all live blocks. -/
theorem perm_owned {l : List Block} (h : Footprint m (l.map Prod.fst) rest) (ho : m.Owns l) :
    m.blocks.Perm (l ++ rest) := by
  obtain ⟨l', hl, hm⟩ := h.split
  have hinj : ∀ b ∈ m.blocks, ∀ c ∈ m.blocks, b.1 = c.1 → b = c := fun b hb c hc =>
    List.inj_on_of_nodup_map h.nodup hb hc
  have hlive : ∀ b ∈ l', b ∈ m.blocks := fun b hb => hm.symm.subset (List.mem_append_left _ hb)
  have hsame : ∀ b, b ∈ l' ↔ b ∈ l := fun b => by
    constructor
    · intro hb
      obtain ⟨c, hc, hcb⟩ := List.mem_map.mp (hl.subset (List.mem_map_of_mem hb))
      exact hinj c (ho.live c hc) b (hlive b hb) hcb ▸ hc
    · intro hb
      obtain ⟨c, hc, hcb⟩ := List.mem_map.mp (hl.symm.subset (List.mem_map_of_mem hb))
      exact hinj c (hlive c hc) b (ho.live b hb) hcb ▸ hc
  have hperm : l'.Perm l := (List.perm_ext_iff_of_nodup
    (.of_map _ (hl.nodup_iff.mpr ho.nodup)) (.of_map _ ho.nodup)).mpr hsame
  exact hm.trans (hperm.append_right rest)

end Footprint

/-! ### The storage of a runtime -/

variable {σ : Type}

/-- The addresses of all that a runtime has allocated. -/
def Manager.addrs (M : Manager σ) (w : World σ) : List Addr := (M.owned w).map Prod.fst

/-- Where the state of an algorithm has its storage: the nodes of the objects that have blocks of
    their own, and the other blocks. -/
structure Storage (σ : Type) where
  nodes : σ → List GcNode
  spaces : σ → List Addr

namespace Storage

variable (S : Storage σ)

/-- The addresses of the blocks of a runtime. -/
def addrs (w : World σ) : List Addr :=
  w.self :: (S.spaces w.algoState ++
    ((S.nodes w.algoState).map GcNode.obj ++ w.graph.handles.map GcHandle.addr))

/-- The runtime accounts for all live blocks but those in `rest`, and there are objects where it
    tracks them. -/
structure Accounts (w : World σ) (rest : List Block) : Prop where
  foot : Footprint w.mem (S.addrs w) rest
  objs : ∀ n ∈ S.nodes w.algoState, (w.graph.objs n.obj).isSome

namespace Accounts

variable {S} {w w' : World σ} {rest : List Block}

/-- What else changes does not matter. -/
theorem congr (h : S.Accounts w rest) (hself : w'.self = w.self)
    (hspaces : S.spaces w'.algoState = S.spaces w.algoState)
    (hnodes : (S.nodes w'.algoState).map GcNode.obj = (S.nodes w.algoState).map GcNode.obj)
    (hblocks : w'.mem.blocks = w.mem.blocks)
    (hhandles : w'.graph.handles.map GcHandle.addr = w.graph.handles.map GcHandle.addr)
    (hobjs : ∀ a, (w.graph.objs a).isSome → (w'.graph.objs a).isSome) : S.Accounts w' rest where
  foot := by
    have haddrs : S.addrs w' = S.addrs w := by
      simp only [addrs, hself, hspaces, hnodes, hhandles]
    rw [haddrs]
    exact h.foot.congr hblocks
  objs n hn := by
    have hmem : n.obj ∈ (S.nodes w.algoState).map GcNode.obj := hnodes ▸ List.mem_map_of_mem hn
    obtain ⟨k, hk, hkn⟩ := List.mem_map.mp hmem
    exact hkn ▸ hobjs _ (h.objs k hk)

theorem quiet (h : S.Accounts w rest) {m : Mem} (hq : w.mem.Quiet m) :
    S.Accounts { w with mem := m } rest :=
  h.congr rfl rfl rfl hq.blocks rfl fun _ ho => ho

theorem modifyObj (h : S.Accounts w rest) (a : Addr) (f : GcHeader → GcHeader) :
    S.Accounts { w with graph := w.graph.modifyObj a f } rest := by
  refine h.congr rfl rfl rfl rfl rfl fun b ho => ?_
  by_cases hba : b = a <;> simp [hba] at ho ⊢ <;> exact ho

theorem write (h : S.Accounts w rest) (r : SlotRef) (v : Addr) :
    S.Accounts { w with graph := w.graph.write r v } rest := by
  obtain ⟨f, hf⟩ := w.graph.write_handles r v
  refine h.congr rfl rfl rfl rfl ?_ fun a ho => ?_
  · show (w.graph.write r v).handles.map GcHandle.addr = _
    rw [hf, List.map_map]
    rfl
  · show ((w.graph.write r v).objs a).isSome
    rwa [w.graph.write_isSome]

/-! ### Handles -/

theorem acquire (algo : GcAlgorithmVtable σ)
    (hpin : algo.pin = some fun w obj => { w with
      graph := w.graph.modifyObj obj fun o => { o with flags := o.flags ||| objectFlagPinned } })
    (h : S.Accounts w rest) (obj : Addr) (flags : BitVec 32) :
    S.Accounts (gcHandleAcquire algo w obj flags).1 rest := by
  by_cases hobj : obj = 0
  · rw [gcHandleAcquire, if_pos hobj]
    exact h
  · rcases gcHandleAcquire_cases hpin hobj flags with heq | ⟨a, hfit, heq⟩
    · rw [heq]
      exact h.quiet w.mem.quiet_refuse
    · rw [heq]
      have hpush : S.Accounts { w with
          mem := w.mem.grant a sizeofHandle
          graph := { w.graph with
            handles := { addr := a, runtime := w.self, target := obj, flags } ::
              w.graph.handles } } rest := by
        refine ⟨(h.foot.grant hfit).perm ?_, h.objs⟩
        simp only [addrs, List.map_cons]
        rw [← List.append_assoc, ← List.append_assoc]
        exact (List.Perm.swap _ _ _).trans (List.perm_middle.symm.cons _)
      exact hpush.modifyObj obj fun o => { o with flags := o.flags ||| objectFlagPinned }

theorem release (algo : GcAlgorithmVtable σ)
    (hunpin : algo.unpin = some fun w obj => { w with
      graph := w.graph.modifyObj obj fun o => { o with flags := o.flags &&& ~~~objectFlagPinned } })
    (h : S.Accounts w rest) (handle : Addr) :
    S.Accounts (gcHandleRelease algo w handle) rest := by
  unfold gcHandleRelease
  split
  · exact h
  · split
    · exact h.congr rfl rfl rfl rfl rfl fun _ ho => ho
    · next k hk =>
      obtain ⟨hkm, rfl⟩ := mem_of_lookup hk
      have hperm : (S.addrs w).Perm (k.addr :: S.addrs { w with graph := { w.graph with
          handles := w.graph.handles.eraseP fun k' => k'.addr = k.addr } }) := by
        have hhandles : (w.graph.handles.map GcHandle.addr).Perm (k.addr ::
            (w.graph.handles.eraseP fun k' => k'.addr = k.addr).map GcHandle.addr) := by
          obtain ⟨k', l₁, l₂, -, hk', heq, herase⟩ :=
            List.exists_of_eraseP (p := fun k' => k'.addr = k.addr) hkm (by simp)
          have haddr : k'.addr = k.addr := by simpa using hk'
          rw [herase, heq, List.map_append, List.map_append, List.map_cons, haddr]
          exact List.perm_middle
        simp only [addrs]
        rw [← List.append_assoc, ← List.append_assoc]
        exact (((hhandles.append_left _).trans List.perm_middle).cons _).trans
          (List.Perm.swap _ _ _)
      have hpop : S.Accounts { w with
          mem := w.mem.free k.addr
          graph := { w.graph with
            handles := w.graph.handles.eraseP fun k' => k'.addr = k.addr } } rest :=
        ⟨(h.foot.perm hperm).free, h.objs⟩
      simp only [hunpin, callHook]
      split
      · exact hpop.modifyObj k.target fun o => { o with flags := o.flags &&& ~~~objectFlagPinned }
      · exact hpop

end Accounts

/-! ### Sweeping -/

/-- The runtime is the same one, in the same state of its algorithm and with the same handles. -/
structure Same (w w' : World σ) : Prop where
  self : w'.self = w.self
  state : w'.algoState = w.algoState
  bound : w'.stateBound = w.stateBound
  handles : w'.graph.handles = w.graph.handles

theorem Same.refl (w : World σ) : Same w w := ⟨rfl, rfl, rfl, rfl⟩

theorem Same.trans {w w' w'' : World σ} (h : Same w w') (h' : Same w' w'') : Same w w'' :=
  ⟨h'.self.trans h.self, h'.state.trans h.state, h'.bound.trans h.bound,
    h'.handles.trans h.handles⟩

/-- What reclaiming an object does, as far as storage goes. -/
structure Reclaims (reclaim : World σ → Addr → World σ) : Prop where
  mem : ∀ w a, (w.graph.objs a).isSome → a ≠ 0 → (reclaim w a).mem = w.mem.free a
  objs : ∀ w a b, b ≠ a → (reclaim w a).graph.objs b = w.graph.objs b
  same : ∀ w a, Same w (reclaim w a)

namespace Reclaims

variable {reclaim : World σ → Addr → World σ} {rest : List Block}

/-- One block less. -/
theorem footprint (hr : Reclaims reclaim) {w : World σ} {a : Addr} {own : List Addr}
    (h : Footprint w.mem (a :: own) rest) (ho : (w.graph.objs a).isSome) :
    Footprint (reclaim w a).mem own rest := by
  rw [hr.mem w a ho (h.ne_zero List.mem_cons_self)]
  exact h.free

theorem sweep_same (hr : Reclaims reclaim) : ∀ (nodes : List GcNode) (w : World σ),
    Same w (sweepNodes reclaim nodes w).2
  | [], w => .refl w
  | node :: nodes, w => by
      rw [sweepNodes]
      split
      · exact sweep_same hr nodes w
      · exact (hr.same w node.obj).trans (sweep_same hr nodes _)

/-- A sweep frees the blocks of the nodes that it drops, and no others. -/
theorem sweep (hr : Reclaims reclaim) : ∀ (nodes : List GcNode) {w : World σ} {own : List Addr},
    Footprint w.mem (nodes.map GcNode.obj ++ own) rest →
    (∀ n ∈ nodes, (w.graph.objs n.obj).isSome) →
    Footprint (sweepNodes reclaim nodes w).2.mem
        ((sweepNodes reclaim nodes w).1.map GcNode.obj ++ own) rest ∧
      (∀ n ∈ (sweepNodes reclaim nodes w).1,
        ((sweepNodes reclaim nodes w).2.graph.objs n.obj).isSome) ∧
      ∀ a ∉ nodes.map GcNode.obj,
        (sweepNodes reclaim nodes w).2.graph.objs a = w.graph.objs a
  | [], _, _, h, hobjs => ⟨h, hobjs, fun _ _ => rfl⟩
  | node :: nodes, w, own, h, hobjs => by
      have hnode := hobjs node List.mem_cons_self
      have hrest : ∀ n ∈ nodes, (w.graph.objs n.obj).isSome :=
        fun n hn => hobjs n (List.mem_cons_of_mem _ hn)
      have hnew : node.obj ∉ nodes.map GcNode.obj := fun hmem =>
        (List.nodup_cons.mp h.own_nodup).1 (List.mem_append_left _ hmem)
      rw [sweepNodes]
      split
      · -- the node stays, and counts as one that is in use otherwise
        obtain ⟨hf, ho, hothers⟩ := sweep hr nodes (h.perm List.perm_middle.symm) hrest
        refine ⟨hf.perm List.perm_middle, fun n hn => ?_, fun a hna => ?_⟩
        · rcases List.mem_cons.mp hn with rfl | hn
          · rw [hothers _ hnew]
            exact hnode
          · exact ho n hn
        · exact hothers a fun hmem => hna (List.mem_cons_of_mem _ hmem)
      · have hne : ∀ n ∈ nodes, n.obj ≠ node.obj := fun n hn he =>
          hnew (he ▸ List.mem_map_of_mem hn)
        have hkept : ∀ n ∈ nodes, ((reclaim w node.obj).graph.objs n.obj).isSome := fun n hn => by
          rw [hr.objs w node.obj n.obj (hne n hn)]
          exact hrest n hn
        obtain ⟨hf, ho, hothers⟩ := sweep hr nodes (hr.footprint h hnode) hkept
        refine ⟨hf, ho, fun a hna => ?_⟩
        rw [List.map_cons, List.mem_cons, not_or] at hna
        rw [hothers a hna.2, hr.objs w node.obj a hna.1]

/-- Reclaiming the objects of all nodes frees their blocks. -/
theorem all (hr : Reclaims reclaim) : ∀ (nodes : List GcNode) {w : World σ} {own : List Addr},
    Footprint w.mem (nodes.map GcNode.obj ++ own) rest →
    (∀ n ∈ nodes, (w.graph.objs n.obj).isSome) →
    Footprint (nodes.foldl (fun w node => reclaim w node.obj) w).mem own rest ∧
      Same w (nodes.foldl (fun w node => reclaim w node.obj) w)
  | [], w, _, h, _ => ⟨h, .refl w⟩
  | node :: nodes, w, own, h, hobjs => by
      have hkept : ∀ n ∈ nodes, ((reclaim w node.obj).graph.objs n.obj).isSome := fun n hn => by
        have hne : n.obj ≠ node.obj := fun he => (List.nodup_cons.mp h.own_nodup).1
          (List.mem_append_left _ (he ▸ List.mem_map_of_mem hn))
        rw [hr.objs w node.obj n.obj hne]
        exact hobjs n (List.mem_cons_of_mem _ hn)
      obtain ⟨hf, hs⟩ := all hr nodes (hr.footprint h (hobjs node List.mem_cons_self)) hkept
      exact ⟨hf, (hr.same w node.obj).trans hs⟩

end Reclaims

/-- After a sweep the runtime accounts for the blocks of the nodes that are left. -/
theorem Accounts.sweep {S : Storage σ} {reclaim : World σ → Addr → World σ} (hr : Reclaims reclaim)
    {w : World σ} {rest : List Block} (h : S.Accounts w rest) {s : σ}
    (hspaces : S.spaces s =
      S.spaces (sweepNodes reclaim (S.nodes w.algoState) w).2.algoState)
    (hnodes : S.nodes s = (sweepNodes reclaim (S.nodes w.algoState) w).1) :
    S.Accounts { (sweepNodes reclaim (S.nodes w.algoState) w).2 with algoState := s } rest := by
  have hfoot : Footprint w.mem ((S.nodes w.algoState).map GcNode.obj ++
      w.self :: (S.spaces w.algoState ++ w.graph.handles.map GcHandle.addr)) rest := by
    refine h.foot.perm ?_
    simp only [addrs]
    exact ((List.perm_append_comm_assoc _ _ _).cons _).trans List.perm_middle.symm
  obtain ⟨hf, ho, -⟩ := hr.sweep (S.nodes w.algoState) hfoot h.objs
  have hsame := hr.sweep_same (S.nodes w.algoState) w
  refine ⟨hf.perm ?_, fun n hn => ho n (hnodes ▸ hn)⟩
  simp only [addrs, hspaces, hnodes, hsame.handles, hsame.self, hsame.state]
  exact List.perm_middle.trans ((List.perm_append_comm_assoc _ _ _).cons _)

theorem reclaims_gcReclaimObject : Reclaims (gcReclaimObject (σ := σ)) where
  mem w a ho ha := by
    obtain ⟨o, ho⟩ := Option.isSome_iff_exists.mp ho
    simp only [gcReclaimObject, if_neg ha, ho]
  objs w a b hb := by
    unfold gcReclaimObject
    split
    · rfl
    · split
      · rfl
      · simp [hb]
  same w a := by
    unfold gcReclaimObject
    split
    · exact .refl w
    · split
      · exact ⟨rfl, rfl, rfl, rfl⟩
      · exact ⟨rfl, rfl, rfl, rfl⟩

/-! ### Allocation -/

end Storage

/-- The plain memory that a call hands out: `gc_alloc_typed` takes it when the algorithm has no object
    to give. -/
def ClientOp.plain (C : Collector σ) (w : World σ) (op : ClientOp) : List Block :=
  match op with
  | .alloc desc size flags =>
    let given :=
      match C.algo.alloc with
      | some take => (take w desc size flags).2
      | none => 0
    let result := (gcAllocTyped C.algo w desc size flags).2
    if given = 0 ∧ result ≠ 0 then [(result, size)] else []
  | _ => []

/-- The repairs of `gc_alloc_typed` and the plain memory that it takes do not concern the algorithm. -/
theorem gcAllocTyped_same (algo : GcAlgorithmVtable σ)
    {alloc : World σ → GcDescriptor → Nat → BitVec 32 → World σ × Addr}
    (halloc : algo.alloc = some alloc) (hpost : algo.postAlloc = some fun w _ => w) {w : World σ}
    {desc : GcDescriptor} {size : Nat} {flags : BitVec 32} (hsize : sizeofHeader ≤ size) :
    Storage.Same (alloc w desc size flags).1 (gcAllocTyped algo w desc size flags).1 := by
  cases heq : alloc w desc size flags with
  | mk w₁ a =>
    by_cases h0 : a = 0
    · subst h0
      rcases gcAllocTyped_plain algo halloc hpost hsize heq with ⟨-, hr⟩ | ⟨-, t, -, hr⟩ <;> rw [hr]
      · exact ⟨rfl, rfl, rfl, rfl⟩
      · exact ⟨rfl, rfl, rfl, rfl⟩
    · rw [gcAllocTyped_repaired algo halloc hpost hsize heq h0]
      exact ⟨rfl, rfl, rfl, rfl⟩

namespace Storage.Accounts

variable {S : Storage σ} {w : World σ} {rest : List Block}

/-- A new object in a block of its own. -/
theorem setObj (h : S.Accounts w rest) (a : Addr) (o : GcHeader) :
    S.Accounts { w with graph := w.graph.setObj a (some o) } rest := by
  refine h.congr rfl rfl rfl rfl rfl fun b ho => ?_
  by_cases hba : b = a <;> simp [hba] at ho ⊢
  exact ho

theorem addObject (h : S.Accounts w rest) (a : Addr) (desc : GcDescriptor) (o : Nat → GcHeader) :
    S.Accounts (w.addObject a desc o) rest :=
  (h.setObj a (o w.graph.history.length)).congr rfl rfl rfl rfl rfl fun _ ho => ho

/-- `gc_alloc_typed` takes no more than the algorithm does, but for plain memory that it hands
    out. -/
theorem allocTyped (C : Collector σ)
    {alloc : World σ → GcDescriptor → Nat → BitVec 32 → World σ × Addr}
    (halloc : C.algo.alloc = some alloc) (hpost : C.algo.postAlloc = some fun w _ => w)
    (h : S.Accounts w rest) {desc : GcDescriptor} {size : Nat} {flags : BitVec 32}
    (ha : S.Accounts (alloc w desc size flags).1 rest) :
    S.Accounts (gcAllocTyped C.algo w desc size flags).1
      (ClientOp.plain C w (.alloc desc size flags) ++ rest) := by
  by_cases hsize : size < sizeofHeader
  · have heq : gcAllocTyped C.algo w desc size flags = (w, 0) := if_pos hsize
    simpa [ClientOp.plain, heq] using h
  · cases heq : alloc w desc size flags with
    | mk w₁ a =>
      rw [heq] at ha
      by_cases h0 : a = 0
      · subst h0
        rcases gcAllocTyped_plain C.algo halloc hpost (Nat.le_of_not_lt hsize) heq with
          ⟨-, hr⟩ | ⟨-, t, hfit, hr⟩
        · simpa [ClientOp.plain, hr] using ha.quiet w₁.mem.quiet_refuse
        · have ht : t ≠ 0 := Nat.pos_iff_ne_zero.mp hfit.1
          have hout : S.Accounts { w₁ with mem := w₁.mem.grant t size } ((t, size) :: rest) :=
            ⟨ha.foot.handOut hfit, ha.objs⟩
          simpa [ClientOp.plain, hr, halloc, heq, ht] using hout.addObject t desc _
      · have hr := gcAllocTyped_repaired C.algo halloc hpost (Nat.le_of_not_lt hsize) heq h0
        simpa [ClientOp.plain, hr, halloc, heq, h0] using ha.modifyObj a _

end Storage.Accounts

end Xgc
