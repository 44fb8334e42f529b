import Xgc.Lib.Blocks
import Mathlib.Tactic.Tauto

/-! The C allocator as the collectors see it: `malloc`, `calloc`, `realloc` and `free`.

    The answers of the allocator are given from outside, one for each call; `none` is a refused
    request. An answer counts as a grant only when it is a block that the C library may return: not
    `NULL`, inside the address space, no larger than `PTRDIFF_MAX` and apart from all live blocks.
    Blocks whose address nobody looks at (list nodes, arrays, bitmaps) are requested with
    `reserve`, which only says whether the request was granted. -/

namespace Xgc

open Lib (Block)

/-- `PTRDIFF_MAX`, the largest size of an object in C. -/
def ptrdiffMax : Nat := 2 ^ 63 - 1

/-- The allocator: its future answers, the calls made so far and the live blocks. `failed` records
    that a request was refused (those of `gc_worklist_push` are recorded by its callers), `fault`
    that storage was used or freed that is not allocated. -/
structure Mem where
  answers : Nat → Option Nat
  calls : Nat
  blocks : List Block
  failed : Bool
  fault : Bool

namespace Mem

/-- The block of `n` bytes at `a` can be handed out. -/
def Fits (m : Mem) (a n : Nat) : Prop :=
  0 < a ∧ a + n < 2 ^ 64 ∧ n ≤ ptrdiffMax ∧ ∀ b ∈ m.blocks, Block.Apart (a, n) b

instance (m : Mem) (a n : Nat) : Decidable (m.Fits a n) := by unfold Fits; infer_instance

/-- A refused request. -/
def refuse (m : Mem) : Mem := { m with calls := m.calls + 1, failed := true }

/-- A granted request for the block of `n` bytes at `a`. -/
def grant (m : Mem) (a n : Nat) : Mem :=
  { m with calls := m.calls + 1, blocks := (a, n) :: m.blocks }

/-- `malloc(n)` and `calloc(1, n)`: the address of the block, or `0`. -/
def malloc (m : Mem) (n : Nat) : Mem × Nat :=
  match m.answers m.calls with
  | some a => if m.Fits a n then (m.grant a n, a) else (m.refuse, 0)
  | none => (m.refuse, 0)

/-- A request for `n` bytes at an address nobody looks at, not recorded when it is refused. -/
def tryReserve (m : Mem) (n : Nat) : Mem × Bool :=
  ({ m with calls := m.calls + 1 }, (m.answers m.calls).isSome && decide (n ≤ ptrdiffMax))

/-- A request for `n` bytes at an address nobody looks at. -/
def reserve (m : Mem) (n : Nat) : Mem × Bool :=
  if (m.tryReserve n).2 then ((m.tryReserve n).1, true) else (m.refuse, false)

/-- `free(a)`; freeing what is not a live block is a fault. -/
def free (m : Mem) (a : Nat) : Mem :=
  if a = 0 then m
  else if ∃ b ∈ m.blocks, b.1 = a then { m with blocks := m.blocks.filter fun b => b.1 ≠ a }
  else { m with fault := true }

/-- `m'` differs from `m` by calls that took no block, so all that may have happened is that
    requests were granted or refused. -/
structure Quiet (m m' : Mem) : Prop where
  answers : m'.answers = m.answers
  blocks : m'.blocks = m.blocks
  fault : m'.fault = m.fault
  failed : m'.failed = false → m.failed = false

theorem Quiet.refl (m : Mem) : m.Quiet m := ⟨rfl, rfl, rfl, id⟩

theorem Quiet.trans {m m' m'' : Mem} (h : m.Quiet m') (h' : m'.Quiet m'') : m.Quiet m'' :=
  ⟨h'.answers.trans h.answers, h'.blocks.trans h.blocks, h'.fault.trans h.fault,
    fun hf => h.failed (h'.failed hf)⟩

theorem quiet_refuse (m : Mem) : m.Quiet m.refuse := ⟨rfl, rfl, rfl, fun h => nomatch h⟩

theorem quiet_tryReserve (m : Mem) (n : Nat) : m.Quiet (m.tryReserve n).1 := ⟨rfl, rfl, rfl, id⟩

/-- `malloc` grants a block that fits, or is refused. -/
theorem malloc_cases (m : Mem) (n : Nat) :
    m.malloc n = (m.refuse, 0) ∨ ∃ a, m.Fits a n ∧ m.malloc n = (m.grant a n, a) := by
  unfold malloc
  cases m.answers m.calls with
  | none => exact .inl rfl
  | some a =>
    by_cases h : m.Fits a n
    · exact .inr ⟨a, h, by simp [h]⟩
    · exact .inl (by simp [h])

/-- `reserve` is granted, or refused and recorded; it takes no block either way. -/
theorem reserve_cases (m : Mem) (n : Nat) :
    m.reserve n = ((m.tryReserve n).1, true) ∨ m.reserve n = (m.refuse, false) := by
  unfold reserve
  by_cases h : (m.tryReserve n).2 <;> simp [h]

theorem quiet_reserve (m : Mem) (n : Nat) : m.Quiet (m.reserve n).1 := by
  rcases m.reserve_cases n with h | h <;> rw [h]
  · exact m.quiet_tryReserve n
  · exact m.quiet_refuse

/-- Only requests of a possible size are granted. -/
theorem reserve_le {m : Mem} {n : Nat} (h : (m.reserve n).2 = true) : n ≤ ptrdiffMax := by
  unfold reserve at h
  split at h
  · next hok =>
    simp only [tryReserve, Bool.and_eq_true, decide_eq_true_eq] at hok
    exact hok.2
  · exact nomatch h

/-- Freeing a live block removes it. -/
theorem free_of_mem {m : Mem} {a n : Nat} (ha : a ≠ 0) (h : (a, n) ∈ m.blocks) :
    m.free a = { m with blocks := m.blocks.filter fun b => b.1 ≠ a } := by
  unfold free
  rw [if_neg ha, if_pos ⟨_, h, rfl⟩]

@[simp] theorem free_failed (m : Mem) (a : Nat) : (m.free a).failed = m.failed := by
  unfold free
  split
  · rfl
  · split <;> rfl

/-- Freeing a block leaves the others. -/
theorem mem_free {m : Mem} {a : Nat} {b : Block} (hb : b ∈ m.blocks) (hne : b.1 ≠ a) :
    b ∈ (m.free a).blocks := by
  unfold free
  split
  · exact hb
  · split
    · exact List.mem_filter.mpr ⟨hb, by simpa using hne⟩
    · exact hb

/-- Freeing the block just granted restores the blocks. -/
theorem filter_grant {m : Mem} {a n : Nat} (h : m.Fits a n) :
    ((a, n) :: m.blocks).filter (fun b => b.1 ≠ a) = m.blocks := by
  rw [List.filter_cons_of_neg (by simp), List.filter_eq_self]
  intro b hb
  simpa using (h.2.2.2 b hb).1.symm

/-- Taking a block and giving it back comes to nothing. -/
theorem quiet_grant_free {m m' : Mem} {a n : Nat} (hfit : m.Fits a n)
    (hq : (m.grant a n).Quiet m') : m.Quiet (m'.free a) := by
  have hlive : (a, n) ∈ m'.blocks := by
    rw [hq.blocks]
    exact List.mem_cons_self
  rw [free_of_mem (Nat.pos_iff_ne_zero.mp hfit.1) hlive]
  refine ⟨hq.answers, ?_, hq.fault, hq.failed⟩
  rw [← filter_grant hfit]
  exact congrArg _ hq.blocks

/-! ### Blocks in use -/

/-- The blocks of `l` are live, each once, in a memory that is in order. -/
structure Owns (m : Mem) (l : List Block) : Prop where
  apart : m.blocks.Pairwise Block.Apart
  range : ∀ b ∈ m.blocks, 0 < b.1 ∧ b.1 + b.2 < 2 ^ 64
  live : ∀ b ∈ l, b ∈ m.blocks
  nodup : (l.map Prod.fst).Nodup
  noFault : m.fault = false

namespace Owns

variable {m : Mem} {l : List Block}

/-- Only the live blocks and the record of faults matter. -/
theorem congr (h : m.Owns l) {m' : Mem} (hblocks : m'.blocks = m.blocks)
    (hfault : m'.fault = m.fault) : m'.Owns l where
  apart := by rw [hblocks]; exact h.apart
  range := by rw [hblocks]; exact h.range
  live := by rw [hblocks]; exact h.live
  nodup := h.nodup
  noFault := hfault.trans h.noFault

theorem quiet (h : m.Owns l) {m' : Mem} (hq : m.Quiet m') : m'.Owns l :=
  h.congr hq.blocks hq.fault

theorem perm (h : m.Owns l) {l' : List Block} (hp : l'.Perm l) : m.Owns l' where
  apart := h.apart
  range := h.range
  live := fun b hb => h.live b (hp.subset hb)
  nodup := (hp.map Prod.fst).nodup_iff.mpr h.nodup
  noFault := h.noFault

/-- A granted block can be used next to those already in use. -/
theorem grant (h : m.Owns l) {a n : Nat} (hf : m.Fits a n) : (m.grant a n).Owns ((a, n) :: l) where
  apart := List.pairwise_cons.mpr ⟨hf.2.2.2, h.apart⟩
  range b hb := by
    rcases List.mem_cons.mp hb with rfl | hb
    · exact ⟨hf.1, hf.2.1⟩
    · exact h.range b hb
  live b hb := by
    rcases List.mem_cons.mp hb with rfl | hb
    · exact List.mem_cons_self ..
    · exact List.mem_cons_of_mem _ (h.live b hb)
  nodup := by
    rw [List.map_cons, List.nodup_cons]
    refine ⟨fun hmem => ?_, h.nodup⟩
    obtain ⟨b, hb, hba⟩ := List.mem_map.mp hmem
    exact (hf.2.2.2 b (h.live b hb)).1 hba.symm
  noFault := h.noFault

theorem tail {b : Block} (h : m.Owns (b :: l)) : m.Owns l where
  apart := h.apart
  range := h.range
  live := fun c hc => h.live c (List.mem_cons_of_mem _ hc)
  nodup := (List.nodup_cons.mp h.nodup).2
  noFault := h.noFault

/-- A block in use can be freed; the others stay in use. -/
theorem free {b : Block} (h : m.Owns (b :: l)) : (m.free b.1).Owns l := by
  have hb : (b.1, b.2) ∈ m.blocks := h.live b (List.mem_cons_self ..)
  have hne : b.1 ≠ 0 := Nat.pos_iff_ne_zero.mp (h.range b hb).1
  have hnodup := List.nodup_cons.mp h.nodup
  rw [free_of_mem hne hb]
  refine ⟨h.apart.filter _, fun c hc => h.range c (List.mem_filter.mp hc).1, fun c hc => ?_,
    hnodup.2, h.noFault⟩
  refine List.mem_filter.mpr ⟨h.live c (List.mem_cons_of_mem _ hc), ?_⟩
  have : c.1 ≠ b.1 := fun he => hnodup.1 (he ▸ List.mem_map_of_mem hc)
  simpa using this

/-- Blocks in use are pairwise apart. -/
theorem pairwise (h : m.Owns l) : l.Pairwise Block.Apart := by
  have hne : l.Pairwise fun b c => b.1 ≠ c.1 := List.pairwise_map.mp h.nodup
  exact hne.imp_of_mem fun hb hc hbc =>
    h.apart.forall (h.live _ hb) (h.live _ hc) fun he => hbc (congrArg Prod.fst he)

/-- What is in use fits the address space. -/
theorem sum_lt (h : m.Owns l) : (l.map Prod.snd).sum < 2 ^ 64 := by
  have hle := Lib.sum_size_le (M := 2 ^ 64 - 1) h.pairwise fun b hb => by
    have := (h.range b (h.live b hb)).2
    omega
  omega

/-- A granted block is apart from those in use. -/
theorem apart_of_fits (h : m.Owns l) {a n : Nat} (hf : m.Fits a n) :
    ∀ b ∈ l, Block.Apart (a, n) b :=
  fun b hb => hf.2.2.2 b (h.live b hb)

end Owns

end Mem

end Xgc
