import Mathlib.Data.Finset.Card
import Mathlib.Data.List.Pairwise
import Mathlib.Order.Interval.Finset.Nat
import Mathlib.Algebra.BigOperators.Group.List.Basic
import Mathlib.Algebra.Ring.Nat

/-! Blocks of an address space: pairs of a start address and a length.

    Blocks that do not overlap and lie below a bound have lengths that add up to at most that
    bound, so a counter that adds up the lengths of live blocks cannot exceed the address space. -/

namespace Xgc.Lib

/-- A block of memory: its first address and its length. -/
abbrev Block := Nat × Nat

/-- Two blocks with different addresses that do not overlap. -/
def Block.Apart (b c : Block) : Prop := b.1 ≠ c.1 ∧ (b.1 + b.2 ≤ c.1 ∨ c.1 + c.2 ≤ b.1)

instance (b c : Block) : Decidable (Block.Apart b c) := by unfold Block.Apart; infer_instance

theorem Block.Apart.symm {b c : Block} (h : Block.Apart b c) : Block.Apart c b :=
  ⟨h.1.symm, h.2.symm⟩

instance : Std.Symm Block.Apart := ⟨fun _ _ h => h.symm⟩

/-- The first block is not empty and lies within the second. -/
def Block.Within (b c : Block) : Prop := c.1 ≤ b.1 ∧ b.1 + b.2 ≤ c.1 + c.2 ∧ 0 < b.2

/-- What is apart from a block is apart from what lies within it. -/
theorem Block.Apart.within {b c d : Block} (h : Block.Apart c d) (hb : b.Within c) :
    Block.Apart b d := by
  obtain ⟨hne, hap⟩ := h
  obtain ⟨hlo, hhi, hpos⟩ := hb
  constructor <;> omega

/-- A block may be divided into parts. -/
theorem pairwise_parts {b : Block} {parts bs : List Block} (h : (b :: bs).Pairwise Block.Apart)
    (hparts : parts.Pairwise Block.Apart) (hin : ∀ p ∈ parts, p.Within b) :
    (parts ++ bs).Pairwise Block.Apart := by
  rw [List.pairwise_cons] at h
  refine List.pairwise_append.mpr ⟨hparts, h.2, ?_⟩
  intro p hp c hc
  exact (h.1 c hc).within (hin p hp)

/-- The addresses that the blocks of a list cover. -/
def cover : List Block → Finset Nat
  | [] => ∅
  | b :: bs => Finset.Ico b.1 (b.1 + b.2) ∪ cover bs

theorem mem_cover : ∀ {bs : List Block} {x : Nat},
    x ∈ cover bs ↔ ∃ b ∈ bs, b.1 ≤ x ∧ x < b.1 + b.2
  | [], x => by simp [cover]
  | b :: bs, x => by simp [cover, @mem_cover bs]

theorem card_cover : ∀ {bs : List Block}, bs.Pairwise Block.Apart →
    (cover bs).card = (bs.map Prod.snd).sum
  | [], _ => by simp [cover]
  | b :: bs, h => by
      rw [List.pairwise_cons] at h
      have hdisj : Disjoint (Finset.Ico b.1 (b.1 + b.2)) (cover bs) := by
        rw [Finset.disjoint_left]
        intro x hx hc
        obtain ⟨c, hc, hcx⟩ := mem_cover.mp hc
        have hap := (h.1 c hc).2
        rw [Finset.mem_Ico] at hx
        omega
      rw [cover, Finset.card_union_of_disjoint hdisj, card_cover h.2, Nat.card_Ico]
      simp

/-- Blocks that do not overlap and end below `M` have lengths that add up to at most `M`. -/
theorem sum_size_le {bs : List Block} {M : Nat} (h : bs.Pairwise Block.Apart)
    (hM : ∀ b ∈ bs, b.1 + b.2 ≤ M) : (bs.map Prod.snd).sum ≤ M := by
  rw [← card_cover h]
  have hsub : cover bs ⊆ Finset.range M := by
    intro x hx
    obtain ⟨b, hb, hbx⟩ := mem_cover.mp hx
    have := hM b hb
    exact Finset.mem_range.mpr (by omega)
  simpa using Finset.card_le_card hsub

end Xgc.Lib
