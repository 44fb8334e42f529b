import Xgc.Core.Memory

/-! `src/core/bitmap.c`: a bitmap in a byte buffer.

    The word operations are those of the source: the mask is a shifted 32-bit `1u`, cut to a byte.
    `Ok` is what `gc_bitmap_check_invariants` asks for, together with the length of the buffer. -/

namespace Xgc

/-- `gc_bitmap`; the `NULL` buffer is the empty one. -/
structure GcBitmap where
  bits : List (BitVec 8)
  bitCount : Nat
  byteCount : Nat

/-- `(uint8_t)(1u << (index % 8u))` -/
def bitMask (index : Nat) : BitVec 8 := (1#32 <<< (index % 8)).setWidth 8

/-- `(uint8_t)~(1u << (index % 8u))` -/
def bitMaskCompl (index : Nat) : BitVec 8 := (~~~(1#32 <<< (index % 8))).setWidth 8

/-- `gc_bitmap_resize` -/
def gcBitmapResize (b : GcBitmap) (bitCount : Nat) (m : Mem) : GcBitmap × Mem × Bool :=
  let byteCount := (bitCount + 7) % 2 ^ 64 / 8
  if byteCount = 0 then ({ bits := [], bitCount := 0, byteCount := 0 }, m, true)
  else
    let (m, ok) := m.reserve byteCount
    if ok then
      ({ bits := b.bits.take byteCount ++ List.replicate (byteCount - b.byteCount) 0,
         bitCount, byteCount }, m, true)
    else (b, m, false)

/-- `gc_bitmap_init` -/
def gcBitmapInit (bitCount : Nat) (m : Mem) : GcBitmap × Mem :=
  let b : GcBitmap := { bits := [], bitCount := 0, byteCount := 0 }
  if bitCount ≠ 0 then
    let (b, m, _) := gcBitmapResize b bitCount m
    (b, m)
  else (b, m)

/-- `gc_bitmap_clear_all` -/
def gcBitmapClearAll (b : GcBitmap) : GcBitmap :=
  if b.bits = [] then b else { b with bits := List.replicate b.byteCount 0 }

/-- `gc_bitmap_set` -/
def gcBitmapSet (b : GcBitmap) (index : Nat) : GcBitmap :=
  if b.bits = [] ∨ index ≥ b.bitCount then b
  else { b with bits := b.bits.modify (index / 8) (· ||| bitMask index) }

/-- `gc_bitmap_clear` -/
def gcBitmapClear (b : GcBitmap) (index : Nat) : GcBitmap :=
  if b.bits = [] ∨ index ≥ b.bitCount then b
  else { b with bits := b.bits.modify (index / 8) (· &&& bitMaskCompl index) }

/-- `gc_bitmap_test` -/
def gcBitmapTest (b : GcBitmap) (index : Nat) : Bool :=
  if b.bits = [] ∨ index ≥ b.bitCount then false
  else (b.bits.getD (index / 8) 0 &&& bitMask index) ≠ 0

/-- `gc_bitmap_check_invariants` -/
def gcBitmapCheckInvariants (b : GcBitmap) : Bool :=
  if b.byteCount ≠ (b.bitCount + 7) % 2 ^ 64 / 8 then false
  else if (b.byteCount = 0) ≠ (b.bits = []) then false
  else true

/-! ### Bits of a byte -/

theorem bitMask_eq (i : Nat) : bitMask i = BitVec.twoPow 8 (i % 8) := by
  ext j hj
  simp only [bitMask, BitVec.getElem_setWidth, BitVec.getLsbD_shiftLeft, BitVec.getElem_twoPow,
    BitVec.getLsbD_one]
  grind

theorem bitMaskCompl_getElem (i : Nat) (j : Nat) (hj : j < 8) :
    (bitMaskCompl i)[j] = !decide (j = i % 8) := by
  simp only [bitMaskCompl, BitVec.getElem_setWidth, BitVec.getLsbD_not, BitVec.getLsbD_shiftLeft,
    BitVec.getLsbD_one]
  grind

/-- Testing with the mask reads one bit. -/
theorem and_bitMask_ne_zero (x : BitVec 8) (i : Nat) :
    (x &&& bitMask i ≠ 0) ↔ x.getLsbD (i % 8) = true := by
  have hi : i % 8 < 8 := Nat.mod_lt _ (by decide)
  rw [bitMask_eq, BitVec.and_twoPow]
  cases hx : x.getLsbD (i % 8)
  · simp
  · simp only [if_true, iff_true]
    intro h0
    have hbit := congrArg (fun y => y.getLsbD (i % 8)) h0
    simp [hi] at hbit

theorem getLsbD_or_bitMask (x : BitVec 8) (i j : Nat) :
    (x ||| bitMask i).getLsbD (j % 8) = (x.getLsbD (j % 8) || decide (j % 8 = i % 8)) := by
  have hj : j % 8 < 8 := Nat.mod_lt _ (by decide)
  rw [bitMask_eq, BitVec.getLsbD_or, BitVec.getLsbD_twoPow]
  grind

theorem getLsbD_and_bitMaskCompl (x : BitVec 8) (i j : Nat) :
    (x &&& bitMaskCompl i).getLsbD (j % 8) = (x.getLsbD (j % 8) && !decide (j % 8 = i % 8)) := by
  have hj : j % 8 < 8 := Nat.mod_lt _ (by decide)
  rw [BitVec.getLsbD_and, BitVec.getLsbD_eq_getElem hj, BitVec.getLsbD_eq_getElem hj,
    bitMaskCompl_getElem i _ hj]

namespace GcBitmap

/-- The buffer holds `byteCount` bytes, just enough for `bitCount` bits. -/
structure Ok (b : GcBitmap) : Prop where
  length : b.bits.length = b.byteCount
  bytes : b.byteCount = (b.bitCount + 7) / 8
  count : b.bitCount + 7 < 2 ^ 64

/-- The byte that holds a bit below `bitCount` is inside the buffer. -/
theorem Ok.byte_lt {b : GcBitmap} (h : b.Ok) {i : Nat} (hi : i < b.bitCount) :
    i / 8 < b.bits.length := by
  have := h.length
  have := h.bytes
  omega

theorem test_eq {b : GcBitmap} (h : b.Ok) (i : Nat) :
    gcBitmapTest b i = (decide (i < b.bitCount) && (b.bits.getD (i / 8) 0).getLsbD (i % 8)) := by
  unfold gcBitmapTest
  by_cases hi : i < b.bitCount
  · have hne : b.bits ≠ [] := List.ne_nil_of_length_pos (Nat.zero_lt_of_lt (h.byte_lt hi))
    rw [if_neg (by simp [hne, hi])]
    simp only [hi, decide_true, Bool.true_and]
    exact Bool.eq_iff_iff.mpr (by simpa using and_bitMask_ne_zero _ i)
  · rw [if_pos (.inr (by omega))]
    simp [hi]

theorem getD_modify (xs : List (BitVec 8)) (f : BitVec 8 → BitVec 8) {i : Nat}
    (hi : i < xs.length) (j : Nat) :
    (xs.modify i f).getD j 0 = if j = i then f (xs.getD j 0) else xs.getD j 0 := by
  by_cases h : j = i
  · subst h; simp [hi]
  · simp [h, Ne.symm h]

@[simp] theorem set_bitCount (b : GcBitmap) (i : Nat) : (gcBitmapSet b i).bitCount = b.bitCount := by
  unfold gcBitmapSet; split <;> rfl

@[simp] theorem clear_bitCount (b : GcBitmap) (i : Nat) :
    (gcBitmapClear b i).bitCount = b.bitCount := by
  unfold gcBitmapClear; split <;> rfl

@[simp] theorem clearAll_bitCount (b : GcBitmap) : (gcBitmapClearAll b).bitCount = b.bitCount := by
  unfold gcBitmapClearAll; split <;> rfl

theorem Ok.set {b : GcBitmap} (h : b.Ok) (i : Nat) : (gcBitmapSet b i).Ok := by
  unfold gcBitmapSet
  split
  · exact h
  · exact ⟨by simpa using h.length, h.bytes, h.count⟩

theorem Ok.clear {b : GcBitmap} (h : b.Ok) (i : Nat) : (gcBitmapClear b i).Ok := by
  unfold gcBitmapClear
  split
  · exact h
  · exact ⟨by simpa using h.length, h.bytes, h.count⟩

theorem Ok.clearAll {b : GcBitmap} (h : b.Ok) : (gcBitmapClearAll b).Ok := by
  unfold gcBitmapClearAll
  split
  · exact h
  · exact ⟨by simp, h.bytes, h.count⟩

/-- `gc_bitmap_set` adds one index. -/
theorem test_set {b : GcBitmap} (h : b.Ok) (i j : Nat) :
    gcBitmapTest (gcBitmapSet b i) j =
      (gcBitmapTest b j || (decide (j = i) && decide (i < b.bitCount))) := by
  rw [test_eq (h.set i), test_eq h, set_bitCount]
  by_cases hi : i < b.bitCount
  · have hlen := h.byte_lt hi
    have hne : b.bits ≠ [] := List.ne_nil_of_length_pos (Nat.zero_lt_of_lt hlen)
    rw [gcBitmapSet, if_neg (by simp [hne, hi])]
    simp only [getD_modify _ _ hlen]
    by_cases hbyte : j / 8 = i / 8
    · rw [if_pos hbyte, getLsbD_or_bitMask]
      have hmod : j % 8 = i % 8 ↔ j = i := by omega
      simp only [hmod, hi]
      by_cases hji : j = i <;> simp [hji, hi]
    · have hji : j ≠ i := fun he => hbyte (by rw [he])
      simp [hbyte, hji]
  · rw [gcBitmapSet, if_pos (.inr (by omega))]
    simp [hi]

/-- `gc_bitmap_clear` removes one index. -/
theorem test_clear {b : GcBitmap} (h : b.Ok) (i j : Nat) :
    gcBitmapTest (gcBitmapClear b i) j = (gcBitmapTest b j && !decide (j = i)) := by
  rw [test_eq (h.clear i), test_eq h, clear_bitCount]
  by_cases hi : i < b.bitCount
  · have hlen := h.byte_lt hi
    have hne : b.bits ≠ [] := List.ne_nil_of_length_pos (Nat.zero_lt_of_lt hlen)
    rw [gcBitmapClear, if_neg (by simp [hne, hi])]
    simp only [getD_modify _ _ hlen]
    by_cases hbyte : j / 8 = i / 8
    · rw [if_pos hbyte, getLsbD_and_bitMaskCompl]
      have hmod : j % 8 = i % 8 ↔ j = i := by omega
      simp only [hmod]
      rw [Bool.and_assoc]
    · have hji : j ≠ i := fun he => hbyte (by rw [he])
      simp [hbyte, hji]
  · rw [gcBitmapClear, if_pos (.inr (by omega))]
    by_cases hji : j = i <;> simp [hji, hi]

/-- `gc_bitmap_clear_all` removes every index. -/
theorem test_clearAll {b : GcBitmap} (h : b.Ok) (j : Nat) :
    gcBitmapTest (gcBitmapClearAll b) j = false := by
  rw [test_eq h.clearAll]
  unfold gcBitmapClearAll
  by_cases hb : b.bits = []
  · simp [hb]
  · simp only [hb, if_false, List.getD_eq_getElem?_getD, List.getElem?_replicate]
    split <;> simp

/-- A bitmap that was initialised with success has the asked length and no index. -/
theorem init_cases {n : Nat} (hn : 0 < n) (hn' : n + 7 < 2 ^ 64) (m : Mem) :
    (∃ b, gcBitmapInit n m = (b, (m.reserve ((n + 7) / 8)).1) ∧ b.Ok ∧ b.bitCount = n ∧
      (∀ j, gcBitmapTest b j = false) ∧ (m.reserve ((n + 7) / 8)).2 = true) ∨
    ∃ b, gcBitmapInit n m = (b, (m.reserve ((n + 7) / 8)).1) ∧ b.bitCount = 0 ∧
      (m.reserve ((n + 7) / 8)).2 = false := by
  have hbytes : (n + 7) % 2 ^ 64 / 8 = (n + 7) / 8 := by rw [Nat.mod_eq_of_lt hn']
  have hpos : (n + 7) / 8 ≠ 0 := by omega
  unfold gcBitmapInit gcBitmapResize
  rw [if_pos (by omega)]
  simp only [hbytes, hpos, if_false]
  by_cases hok : (m.reserve ((n + 7) / 8)).2 = true
  · have hOk : (⟨List.replicate ((n + 7) / 8) 0, n, (n + 7) / 8⟩ : GcBitmap).Ok :=
      ⟨by simp, rfl, hn'⟩
    refine .inl ⟨_, by simp [hok], hOk, rfl, fun j => ?_, hok⟩
    rw [test_eq hOk]
    simp only [List.getD_eq_getElem?_getD, List.getElem?_replicate]
    split <;> simp
  · exact .inr ⟨⟨[], 0, 0⟩, by simp [hok], rfl, by simpa using hok⟩

/-- The bit at an index of the buffer, whether or not the bitmap is as long as that. -/
def bit (b : GcBitmap) (i : Nat) : Bool := (b.bits.getD (i / 8) 0).getLsbD (i % 8)

theorem test_bit {b : GcBitmap} (h : b.Ok) (i : Nat) :
    gcBitmapTest b i = (decide (i < b.bitCount) && b.bit i) := test_eq h i

theorem ok_empty : (⟨[], 0, 0⟩ : GcBitmap).Ok := ⟨rfl, rfl, by decide⟩

/-- A resize drops the buffer, when the number of bytes comes out as zero, or keeps every bit of
    the buffer up to the new length, or is refused. -/
theorem resize_cases {b : GcBitmap} (h : b.Ok) {n : Nat} (hn : n < 2 ^ 64) (m : Mem) :
    (n = 0 ∨ 2 ^ 64 ≤ n + 7) ∧ gcBitmapResize b n m = (⟨[], 0, 0⟩, m, true) ∨
    n + 7 < 2 ^ 64 ∧ (m.reserve ((n + 7) / 8)).2 = true ∧
      (∃ b', gcBitmapResize b n m = (b', (m.reserve ((n + 7) / 8)).1, true) ∧ b'.Ok ∧
        b'.bitCount = n ∧ ∀ i < n, b'.bit i = b.bit i) ∨
    n + 7 < 2 ^ 64 ∧ (m.reserve ((n + 7) / 8)).2 = false ∧
      gcBitmapResize b n m = (b, (m.reserve ((n + 7) / 8)).1, false) := by
  unfold gcBitmapResize
  by_cases hz : (n + 7) % 2 ^ 64 / 8 = 0
  · exact .inl ⟨by omega, by simp only [hz, if_true]⟩
  have hfit : n + 7 < 2 ^ 64 := by omega
  rw [Nat.mod_eq_of_lt hfit] at hz ⊢
  simp only [hz, if_false]
  by_cases hok : (m.reserve ((n + 7) / 8)).2 = true
  · refine .inr (.inl ⟨hfit, hok, ⟨b.bits.take ((n + 7) / 8) ++
      List.replicate ((n + 7) / 8 - b.byteCount) 0, n, (n + 7) / 8⟩, by simp only [hok, if_true],
      ⟨?_, rfl, hfit⟩, rfl, fun i hi => ?_⟩)
    · simp only [List.length_append, List.length_take, List.length_replicate, h.length]
      omega
    · -- a byte of the old buffer is kept, and a byte past it reads as zero before and after
      have hi : i / 8 < (n + 7) / 8 := by omega
      unfold bit
      congr 1
      simp only [List.getD_eq_getElem?_getD]
      by_cases hold : i / 8 < b.bits.length
      · rw [List.getElem?_append_left (by simp; omega), List.getElem?_take_of_lt hi]
      · have hnone : b.bits[i / 8]? = none := List.getElem?_eq_none (by omega)
        rw [List.getElem?_append_right (by simp; omega), hnone, List.getElem?_replicate]
        split <;> rfl
  · refine .inr (.inr ⟨hfit, by simpa using hok, by simp only [hok]; rfl⟩)

theorem Ok.resize {b : GcBitmap} (h : b.Ok) {n : Nat} (hn : n < 2 ^ 64) (m : Mem) :
    (gcBitmapResize b n m).1.Ok := by
  rcases resize_cases h hn m with ⟨-, heq⟩ | ⟨-, -, b', heq, hok, -⟩ | ⟨-, -, heq⟩ <;> rw [heq]
  · exact ok_empty
  · exact hok
  · exact h

/-- A new bitmap is the empty one resized. -/
theorem init_eq (n : Nat) (m : Mem) : (gcBitmapInit n m).1 = (gcBitmapResize ⟨[], 0, 0⟩ n m).1 := by
  unfold gcBitmapInit
  by_cases hn : n = 0
  · simp [hn, gcBitmapResize]
  · rw [if_pos hn]

theorem ok_init {n : Nat} (hn : n < 2 ^ 64) (m : Mem) : (gcBitmapInit n m).1.Ok := by
  rw [init_eq]
  exact ok_empty.resize hn m

/-- A new bitmap has no index, however long it has come out. -/
theorem init_clear {n : Nat} (hn : n < 2 ^ 64) (m : Mem) (j : Nat) :
    gcBitmapTest (gcBitmapInit n m).1 j = false := by
  have hempty : ∀ i, bit ⟨[], 0, 0⟩ i = false := fun i => by simp [bit]
  rw [test_bit (ok_init hn m), init_eq]
  rcases resize_cases ok_empty hn m with ⟨-, heq⟩ | ⟨-, -, b', heq, -, hcount, hbit⟩ | ⟨-, -, heq⟩
  · simp [heq]
  · rw [heq]
    by_cases hj : j < n
    · simp [hbit j hj, hempty]
    · simp [hcount, hj]
  · simp [heq]

/-- A new bitmap takes no block from the allocator. -/
theorem quiet_init (n : Nat) (m : Mem) : m.Quiet (gcBitmapInit n m).2 := by
  unfold gcBitmapInit gcBitmapResize
  by_cases hn : n = 0
  · simp only [hn, ne_eq, not_true, if_false]
    exact .refl m
  · by_cases hbytes : (n + 7) % 2 ^ 64 / 8 = 0
    · simp only [hn, hbytes, ne_eq, not_false_eq_true, if_true]
      exact .refl m
    · have hq := m.quiet_reserve ((n + 7) % 2 ^ 64 / 8)
      simp only [hn, hbytes, ne_eq, not_false_eq_true, if_true, if_false]
      split
      · exact hq
      · exact hq

theorem check_of_ok {b : GcBitmap} (h : b.Ok) : gcBitmapCheckInvariants b = true := by
  have hb := h.bytes
  have hl := h.length
  unfold gcBitmapCheckInvariants
  rw [Nat.mod_eq_of_lt h.count, if_neg (by simp [hb]), if_neg]
  simp [← hl]

end GcBitmap

end Xgc
