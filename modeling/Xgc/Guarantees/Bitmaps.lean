import Xgc.Core.Bitmap
import Xgc.Lib.Runs
import Mathlib.Data.Finset.Basic

/-! Bitmaps over whole runs. At a fixed length a bitmap is a set of indices, and no call leaves its
    buffer. A resize keeps the buffer byte by byte, so that an index between the old length and the
    new one reads as the byte had it before; and a length whose number of bytes wraps empties the
    bitmap. -/

namespace Xgc

open Lib (Run)

/-- A call that leaves the length as it is. -/
inductive BitOp
  | set (index : Nat)
  | clear (index : Nat)
  | clearAll
  | test (index : Nat)

namespace BitOp

def perform (b : GcBitmap) : BitOp → GcBitmap
  | set i => gcBitmapSet b i
  | clear i => gcBitmapClear b i
  | clearAll => gcBitmapClearAll b
  | test _ => b

/-- The same call on a set of indices. -/
def apply (s : Finset Nat) : BitOp → Finset Nat
  | set i => insert i s
  | clear i => s.erase i
  | clearAll => ∅
  | test _ => s

/-- The bytes of the buffer that a call reads or writes. -/
def bytes (b : GcBitmap) : BitOp → List Nat
  | set i | clear i | test i => if b.bits = [] ∨ i ≥ b.bitCount then [] else [i / 8]
  | clearAll => if b.bits = [] then [] else List.range b.byteCount

theorem perform_ok {b : GcBitmap} (h : b.Ok) (op : BitOp) : (op.perform b).Ok := by
  cases op with
  | set i => exact h.set i
  | clear i => exact h.clear i
  | clearAll => exact h.clearAll
  | test i => exact h

@[simp] theorem perform_bitCount (b : GcBitmap) (op : BitOp) :
    (op.perform b).bitCount = b.bitCount := by
  cases op <;> simp [perform]

/-- A call on a bitmap is the call on the set of its indices. -/
theorem test_perform {b : GcBitmap} (h : b.Ok) {s : Finset Nat}
    (hs : ∀ j, gcBitmapTest b j = true ↔ j < b.bitCount ∧ j ∈ s) (op : BitOp) (j : Nat) :
    gcBitmapTest (op.perform b) j = true ↔ j < b.bitCount ∧ j ∈ op.apply s := by
  have hj := hs j
  cases op with
  | set i =>
    simp only [perform, apply, GcBitmap.test_set h, Finset.mem_insert, Bool.or_eq_true,
      Bool.and_eq_true, decide_eq_true_eq]
    constructor
    · rintro (ht | ⟨rfl, hlt⟩)
      · exact ⟨(hj.mp ht).1, .inr (hj.mp ht).2⟩
      · exact ⟨hlt, .inl rfl⟩
    · rintro ⟨hlt, rfl | hmem⟩
      · exact .inr ⟨rfl, hlt⟩
      · exact .inl (hj.mpr ⟨hlt, hmem⟩)
  | clear i =>
    simp only [perform, apply, GcBitmap.test_clear h, Finset.mem_erase, Bool.and_eq_true, hj,
      Bool.not_eq_true', decide_eq_false_iff_not]
    tauto
  | clearAll => simp [perform, apply, GcBitmap.test_clearAll h]
  | test i => exact hj

theorem bytes_lt {b : GcBitmap} (h : b.Ok) (op : BitOp) : ∀ k ∈ op.bytes b, k < b.byteCount := by
  have hindex : ∀ i, ∀ k ∈ (if b.bits = [] ∨ i ≥ b.bitCount then [] else [i / 8]),
      k < b.byteCount := by
    intro i k hk
    split at hk
    · exact absurd hk List.not_mem_nil
    · next hin =>
      rw [List.mem_singleton] at hk
      have := h.bytes
      omega
  cases op with
  | set i => exact hindex i
  | clear i => exact hindex i
  | clearAll =>
    intro k hk
    simp only [bytes] at hk
    split at hk
    · exact absurd hk List.not_mem_nil
    · exact List.mem_range.mp hk
  | test i => exact hindex i

/-- A call changes no byte but those it accesses. -/
theorem perform_frame {b : GcBitmap} (h : b.Ok) (op : BitOp) {k : Nat} (hk : k ∉ op.bytes b) :
    (op.perform b).bits[k]? = b.bits[k]? := by
  cases op with
  | set i =>
    simp only [perform, gcBitmapSet]
    split
    · rfl
    · next hin =>
      simp only [bytes, if_neg hin, List.mem_singleton] at hk
      simp [Ne.symm hk]
  | clear i =>
    simp only [perform, gcBitmapClear]
    split
    · rfl
    · next hin =>
      simp only [bytes, if_neg hin, List.mem_singleton] at hk
      simp [Ne.symm hk]
  | clearAll =>
    simp only [perform, gcBitmapClearAll]
    split
    · rfl
    · next hne =>
      simp only [bytes, if_neg hne, List.mem_range, not_lt] at hk
      rw [List.getElem?_eq_none (by simpa using hk), List.getElem?_eq_none (by rwa [h.length])]
  | test i => rfl

end BitOp

/-- The bitmap `b` of length `n` is the set `s`, and its calls stay inside its buffer. -/
structure IsIndexSet (n : Nat) (b : GcBitmap) (s : Finset Nat) : Prop where
  test : ∀ i, gcBitmapTest b i = true ↔ i < n ∧ i ∈ s
  bytes : ∀ op : BitOp, ∀ k ∈ op.bytes b, k < b.byteCount
  buffer : b.bits.length = b.byteCount
  frame : ∀ (op : BitOp) (k : Nat), k ∉ op.bytes b → (op.perform b).bits[k]? = b.bits[k]?
  check : gcBitmapCheckInvariants b = true

theorem IsIndexSet.of_ok {b : GcBitmap} (h : b.Ok) {s : Finset Nat}
    (hs : ∀ j, gcBitmapTest b j = true ↔ j < b.bitCount ∧ j ∈ s) : IsIndexSet b.bitCount b s where
  test := hs
  bytes := BitOp.bytes_lt h
  buffer := h.length
  frame op _ := op.perform_frame h
  check := GcBitmap.check_of_ok h

/-- Calls in sequence keep a bitmap equal to the set that the same calls build. -/
theorem isIndexSet_foldl : ∀ (ops : List BitOp) {b : GcBitmap} {s : Finset Nat}, b.Ok →
    (∀ j, gcBitmapTest b j = true ↔ j < b.bitCount ∧ j ∈ s) →
    IsIndexSet b.bitCount (ops.foldl BitOp.perform b) (ops.foldl BitOp.apply s)
  | [], _, _, hok, hs => .of_ok hok hs
  | op :: ops, b, s, hok, hs => by
      have h := isIndexSet_foldl ops (op.perform_ok hok)
        (by simpa using BitOp.test_perform hok hs op)
      simpa using h

/-- A new bitmap whose storage was granted has the asked length and no index. -/
theorem init_granted {n : Nat} (hn : n ≤ 2 ^ 64 - 1 - 7) {m : Mem}
    (hm : n = 0 ∨ (m.reserve ((n + 7) / 8)).2 = true) :
    (gcBitmapInit n m).1.Ok ∧ (gcBitmapInit n m).1.bitCount = n ∧
      ∀ j, gcBitmapTest (gcBitmapInit n m).1 j = false := by
  rcases Nat.eq_zero_or_pos n with rfl | hpos
  · exact ⟨GcBitmap.ok_empty, rfl, fun j => rfl⟩
  · rcases GcBitmap.init_cases hpos (by omega) m with
      ⟨b, heq, hok, hcount, htest, -⟩ | ⟨b, heq, -, hrefused⟩
    · rw [heq]
      exact ⟨hok, hcount, htest⟩
    · rw [hrefused] at hm
      exact absurd (hm.resolve_left hpos.ne') Bool.false_ne_true

/-- At a fixed length a bitmap is a set of indices. -/
theorem bitmap_isIndexSet {n : Nat} (hn : n ≤ 2 ^ 64 - 1 - 7) {m : Mem}
    (hm : n = 0 ∨ (m.reserve ((n + 7) / 8)).2 = true) (ops : List BitOp) :
    IsIndexSet n (ops.foldl BitOp.perform (gcBitmapInit n m).1) (ops.foldl BitOp.apply ∅) := by
  obtain ⟨hok, hcount, hclear⟩ := init_granted hn hm
  have hempty : ∀ j, gcBitmapTest (gcBitmapInit n m).1 j = true ↔
      j < (gcBitmapInit n m).1.bitCount ∧ j ∈ (∅ : Finset Nat) := fun j => by simp [hclear j]
  have h := isIndexSet_foldl ops hok hempty
  rwa [hcount] at h

/-- An allocator that grants every request of a possible size. -/
def freshMem : Mem := ⟨fun k => some (2 ^ 20 * (k + 1)), 0, [], false, false⟩

theorem bitmap_isIndexSet_sample :
    IsIndexSet 10 ([BitOp.set 3, .set 9, .set 10, .clear 3].foldl BitOp.perform
      (gcBitmapInit 10 freshMem).1)
      ([BitOp.set 3, .set 9, .set 10, .clear 3].foldl BitOp.apply ∅) :=
  bitmap_isIndexSet (n := 10) (m := freshMem) (by decide) (.inr (by decide)) _

/-! ### Changing the length -/

/-- A call of `bitmap.c`. -/
inductive BitmapOp
  | init (bitCount : Nat)
  | resize (bitCount : Nat)
  | within (op : BitOp)

namespace BitmapOp

def perform (s : GcBitmap × Mem) : BitmapOp → GcBitmap × Mem
  | init n => gcBitmapInit n s.2
  | resize n => ((gcBitmapResize s.1 n s.2).1, (gcBitmapResize s.1 n s.2).2.1)
  | within op => (op.perform s.1, s.2)

/-- Lengths are values of type `size_t`. -/
def Legal : BitmapOp → Prop
  | init n | resize n => n < 2 ^ 64
  | within _ => True

def Step (s : GcBitmap × Mem) (op : BitmapOp) (s' : GcBitmap × Mem) : Prop :=
  op.Legal ∧ s' = op.perform s

theorem perform_ok {s : GcBitmap × Mem} (h : s.1.Ok) {op : BitmapOp} (hop : op.Legal) :
    (op.perform s).1.Ok := by
  cases op with
  | init n => exact GcBitmap.ok_init hop s.2
  | resize n => exact h.resize hop s.2
  | within op => exact op.perform_ok h

end BitmapOp

/-- A bitmap that calls of `bitmap.c` lead to, from a zeroed one, whatever the allocator answers. -/
def BitmapRun (ops : List BitmapOp) (b : GcBitmap) : Prop :=
  ∃ (m : Mem) (s : GcBitmap × Mem), s.1 = b ∧ Run BitmapOp.Step (⟨[], 0, 0⟩, m) ops s

theorem BitmapRun.ok {ops : List BitmapOp} {b : GcBitmap} (h : BitmapRun ops b) : b.Ok := by
  obtain ⟨m, s, rfl, hrun⟩ := h
  refine hrun.invariant (P := fun s => s.1.Ok) ?_ GcBitmap.ok_empty
  rintro s op s' hs ⟨hop, rfl⟩
  exact BitmapOp.perform_ok hs hop

/-- What a resize of `b` to `n` bits promises: the asked length, the old indices and no new one when
    it returns 1, and nothing changed when it returns 0. -/
structure ResizeKeeps (b : GcBitmap) (n : Nat) (r : GcBitmap × Mem × Bool) : Prop where
  count : r.2.2 = true → r.1.bitCount = n
  kept : r.2.2 = true → ∀ i < b.bitCount, i < n → gcBitmapTest r.1 i = gcBitmapTest b i
  clear : r.2.2 = true → ∀ i, b.bitCount ≤ i → i < n → gcBitmapTest r.1 i = false
  refused : r.2.2 = false → r.1 = b

/-- The buffer of `b` has a bit set at an index past the length and below `n`. -/
def GcBitmap.Residue (b : GcBitmap) (n : Nat) : Prop :=
  ∃ i, b.bitCount ≤ i ∧ i < n ∧ b.bit i = true

theorem GcBitmap.Ok.resizeKeeps_iff {b : GcBitmap} (h : b.Ok) {n : Nat} (hn : n < 2 ^ 64) (m : Mem) :
    ResizeKeeps b n (gcBitmapResize b n m) ↔
      n + 7 < 2 ^ 64 ∧ ((m.reserve ((n + 7) / 8)).2 = true → ¬ b.Residue n) := by
  rcases resize_cases h hn m with ⟨hz, heq⟩ | ⟨hfit, hok, b', heq, hb', hcount, hbit⟩ |
    ⟨hfit, hrefused, heq⟩ <;> rw [heq]
  · -- the number of bytes is zero: right for the length zero, wrong when it has wrapped
    constructor
    · intro hk
      have hcount : 0 = n := hk.count rfl
      refine ⟨by omega, ?_⟩
      rintro - ⟨i, -, hi, -⟩
      omega
    · rintro ⟨hfit, -⟩
      obtain rfl : n = 0 := by omega
      exact ⟨fun _ => rfl, fun _ _ _ hi => absurd hi (Nat.not_lt_zero _),
        fun _ _ _ hi => absurd hi (Nat.not_lt_zero _), fun hr => nomatch hr⟩
  · have htest : ∀ i < n, gcBitmapTest b' i = b.bit i := fun i hi => by
      rw [test_bit hb', hbit i hi, hcount]
      simp [hi]
    constructor
    · intro hk
      refine ⟨hfit, ?_⟩
      rintro - ⟨i, hold, hi, hset⟩
      have hclear := hk.clear rfl i hold hi
      rw [htest i hi, hset] at hclear
      exact nomatch hclear
    · rintro ⟨-, hres⟩
      refine ⟨fun _ => hcount, fun _ i hold hi => ?_, fun _ i hold hi => ?_, fun hr => nomatch hr⟩
      · rw [htest i hi, test_bit h]
        simp [hold]
      · rw [htest i hi]
        exact Bool.eq_false_iff.mpr fun hset => hres hok ⟨i, hold, hi, hset⟩
  · constructor
    · exact fun _ => ⟨hfit, fun hok => by rw [hrefused] at hok; exact nomatch hok⟩
    · exact fun _ => ⟨nofun, nofun, nofun, fun _ => rfl⟩

/-- Every bitmap keeps its indices over a resize, and gets no new one, exactly when the number of
    bytes does not wrap and the resize, if it is granted, uncovers no bit that was left behind. -/
theorem gcBitmapResize_keeps_iff {ops : List BitmapOp} {b : GcBitmap} (h : BitmapRun ops b) {n : Nat}
    (hn : n < 2 ^ 64) (m : Mem) :
    ResizeKeeps b n (gcBitmapResize b n m) ↔
      n + 7 < 2 ^ 64 ∧ ((m.reserve ((n + 7) / 8)).2 = true → ¬ b.Residue n) :=
  h.ok.resizeKeeps_iff hn m

/-- Ten bits with one index set. -/
def sampleBitmapOps : List BitmapOp := [.init 10, .within (.set 3)]

def sampleBitmap : GcBitmap × Mem := sampleBitmapOps.foldl BitmapOp.perform (⟨[], 0, 0⟩, freshMem)

theorem gcBitmapResize_keeps_sample :
    ResizeKeeps sampleBitmap.1 20 (gcBitmapResize sampleBitmap.1 20 sampleBitmap.2) := by
  have hrun : BitmapRun sampleBitmapOps sampleBitmap.1 := by
    refine ⟨freshMem, sampleBitmap, rfl, Run.foldl _ _ ?_⟩
    simp [sampleBitmapOps, BitmapOp.Legal]
  refine (gcBitmapResize_keeps_iff hrun (by decide) sampleBitmap.2).mpr ⟨by decide, fun _ => ?_⟩
  rintro ⟨i, hold, hi, hset⟩
  have hnone : ∀ i < 20, 10 ≤ i → sampleBitmap.1.bit i ≠ true := by decide +kernel
  exact hnone i hi hold hset

/-- Eight bits with the last index set, cut down to four. -/
def cutBitmapOps : List BitmapOp := [.init 8, .within (.set 7), .resize 4]

def cutBitmap : GcBitmap × Mem := cutBitmapOps.foldl BitmapOp.perform (⟨[], 0, 0⟩, freshMem)

/-- An index that was cut off comes back, and a length that wraps empties the bitmap. -/
theorem gcBitmapResize_residue : ∃ ops b m, BitmapRun ops b ∧
    ¬ ResizeKeeps b 8 (gcBitmapResize b 8 m) ∧
    ¬ ResizeKeeps b (2 ^ 64 - 1) (gcBitmapResize b (2 ^ 64 - 1) m) := by
  refine ⟨cutBitmapOps, cutBitmap.1, cutBitmap.2, ⟨freshMem, cutBitmap, rfl,
    Run.foldl _ _ ?_⟩, fun h => ?_, fun h => ?_⟩
  · simp [cutBitmapOps, BitmapOp.Legal]
  · exact absurd (h.clear (by decide +kernel) 7 (by decide +kernel) (by decide)) (by decide +kernel)
  · exact absurd (h.count (by decide +kernel)) (by decide +kernel)

end Xgc
