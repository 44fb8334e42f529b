import Xgc.Core.Memory

/-! `src/core/worklist.c`: the explicit stack of the tracing loops. -/

namespace Xgc

/-- `gc_worklist`; the `NULL` buffer is the empty one. -/
structure GcWorklist where
  data : List Nat
  top : Int
  capacity : Int

/-- The value of an arithmetic result in a 32-bit `int`. -/
def wrapInt (x : Int) : Int := (x + 2 ^ 31) % 2 ^ 32 - 2 ^ 31

/-- A conversion to `size_t`. -/
def toSize (x : Int) : Nat := (x % 2 ^ 64).toNat

/-- `realloc` of an array: the common prefix is kept. -/
def resizeArray (xs : List Nat) (n : Nat) : List Nat :=
  xs.take n ++ List.replicate (n - xs.length) 0

/-- `gc_worklist_push`; the flag says that the object was not dropped. -/
def gcWorklistPush (wl : GcWorklist) (obj : Nat) (m : Mem) : GcWorklist × Mem × Bool :=
  if obj = 0 then (wl, m, true)
  else if wl.top < wl.capacity then
    ({ wl with data := wl.data.set wl.top.toNat obj, top := wl.top + 1 }, m, true)
  else
    let newCapacity := if 0 < wl.capacity then wrapInt (wl.capacity * 2) else 16
    let (m, ok) := m.tryReserve (toSize newCapacity * 8 % 2 ^ 64)
    if ok then
      ({ data := (resizeArray wl.data (toSize newCapacity)).set wl.top.toNat obj,
         top := wl.top + 1, capacity := newCapacity }, m, true)
    else (wl, m, false)

/-- `gc_worklist_pop` -/
def gcWorklistPop (wl : GcWorklist) : GcWorklist × Nat :=
  if wl.top ≤ 0 then (wl, 0)
  else ({ wl with top := wl.top - 1 }, wl.data.getD (wl.top - 1).toNat 0)

/-- `gc_worklist_check_invariants` -/
def gcWorklistCheckInvariants (wl : GcWorklist) : Bool :=
  if wl.top < 0 ∨ wl.top > wl.capacity then false
  else if wl.capacity = 0 then
    if wl.data ≠ [] ∨ wl.top ≠ 0 then false else true
  else if wl.data = [] then false else true

namespace GcWorklist

/-- The objects on the stack, the top first. -/
def items (wl : GcWorklist) : List Nat := (wl.data.take wl.top.toNat).reverse

/-- The buffer holds `capacity` elements, `top` of them in use, and `capacity` is an `int`. -/
structure Ok (wl : GcWorklist) : Prop where
  top_nonneg : 0 ≤ wl.top
  top_le : wl.top ≤ wl.capacity
  length : (wl.data.length : Int) = wl.capacity
  capacity_lt : wl.capacity < 2 ^ 31

/-- The buffer can be used for an empty stack again. -/
theorem Ok.reset {wl : GcWorklist} (h : wl.Ok) : ({ wl with top := 0 } : GcWorklist).Ok where
  top_nonneg := le_refl _
  top_le := le_trans h.top_nonneg h.top_le
  length := h.length
  capacity_lt := h.capacity_lt

theorem items_set {xs : List Nat} {n x : Nat} (h : n < xs.length) :
    ((xs.set n x).take (n + 1)).reverse = x :: (xs.take n).reverse := by
  rw [List.take_add_one, List.take_set_of_le (le_refl n), List.reverse_append]
  simp [h]

theorem toSize_of_nonneg {x : Int} (h : 0 ≤ x) (h' : x < 2 ^ 64) : toSize x = x.toNat := by
  unfold toSize
  omega

/-- A capacity that no longer fits an `int` asks for more than any block can have. -/
theorem size_of_overflow {c : Int} (h : 2 ^ 30 ≤ c) (h' : c < 2 ^ 31) :
    ptrdiffMax < toSize (wrapInt (c * 2)) * 8 % 2 ^ 64 := by
  unfold toSize wrapInt ptrdiffMax
  omega

theorem resizeArray_length (xs : List Nat) (n : Nat) : (resizeArray xs n).length = n := by
  simp only [resizeArray, List.length_append, List.length_take, List.length_replicate]
  omega

theorem resizeArray_take {xs : List Nat} {n k : Nat} (hk : k ≤ xs.length) (hn : k ≤ n) :
    (resizeArray xs n).take k = xs.take k := by
  have hlen : k ≤ (xs.take n).length := by simp; omega
  rw [resizeArray, List.take_append_of_le_length hlen, List.take_take, Nat.min_eq_left hn]

/-- A push takes no block from the allocator. -/
theorem quiet_push (wl : GcWorklist) (obj : Nat) (m : Mem) :
    m.Quiet (gcWorklistPush wl obj m).2.1 := by
  unfold gcWorklistPush
  generalize (if 0 < wl.capacity then wrapInt (wl.capacity * 2) else 16) = n
  split
  · exact .refl m
  · split
    · exact .refl m
    · have hq := m.quiet_tryReserve (toSize n * 8 % 2 ^ 64)
      simp only
      split
      · exact hq
      · exact hq

/-- Pushing an object puts it on top of the stack, or drops it when there is no room and the
    buffer cannot grow. -/
theorem push_cases {wl : GcWorklist} (h : wl.Ok) {obj : Nat} (hobj : obj ≠ 0) (m : Mem) :
    (∃ wl' m', gcWorklistPush wl obj m = (wl', m', true) ∧ wl'.Ok ∧
      wl'.items = obj :: wl.items ∧ (∃ k, m' = { m with calls := k })) ∨
    ∃ k, gcWorklistPush wl obj m = (wl, { m with calls := k }, false) := by
  obtain ⟨h0, hle, hlen, hcap⟩ := h
  unfold gcWorklistPush
  rw [if_neg hobj]
  by_cases hroom : wl.top < wl.capacity
  · rw [if_pos hroom]
    refine .inl ⟨_, _, rfl, ⟨?_, ?_, ?_, hcap⟩, ?_, m.calls, rfl⟩
    · show 0 ≤ wl.top + 1; omega
    · show wl.top + 1 ≤ wl.capacity; omega
    · show ((wl.data.set wl.top.toNat obj).length : Int) = wl.capacity
      simpa using hlen
    · have htop : (wl.top + 1).toNat = wl.top.toNat + 1 := by omega
      show ((wl.data.set wl.top.toNat obj).take (wl.top + 1).toNat).reverse = _
      rw [htop]
      exact items_set (by omega)
  · rw [if_neg hroom]
    set newCapacity := if 0 < wl.capacity then wrapInt (wl.capacity * 2) else 16 with hnew
    by_cases hok : (m.tryReserve (toSize newCapacity * 8 % 2 ^ 64)).2
    · -- a granted request fits `PTRDIFF_MAX`, so the doubled capacity has not overflowed
      have hbytes : toSize newCapacity * 8 % 2 ^ 64 ≤ ptrdiffMax := by
        simp only [Mem.tryReserve, Bool.and_eq_true, decide_eq_true_eq] at hok
        exact hok.2
      have hgrow : wl.capacity < newCapacity ∧ newCapacity < 2 ^ 31 := by
        by_cases hpos : 0 < wl.capacity
        · rw [if_pos hpos] at hnew
          by_cases hbig : 2 ^ 30 ≤ wl.capacity
          · have := size_of_overflow hbig hcap
            rw [← hnew] at this
            omega
          · unfold wrapInt at hnew
            omega
        · rw [if_neg hpos] at hnew
          omega
      have hsize : toSize newCapacity = newCapacity.toNat :=
        toSize_of_nonneg (by omega) (by omega)
      have htop : wl.top.toNat ≤ wl.data.length := by omega
      refine .inl ⟨_, (m.tryReserve _).1, by simp only [hok, if_true]; exact rfl,
        ⟨?_, ?_, ?_, hgrow.2⟩, ?_, m.calls + 1, rfl⟩
      · show 0 ≤ wl.top + 1; omega
      · show wl.top + 1 ≤ newCapacity; omega
      · show ((List.set _ _ obj).length : Int) = newCapacity
        rw [List.length_set, resizeArray_length, hsize]
        omega
      · have hsucc : (wl.top + 1).toNat = wl.top.toNat + 1 := by omega
        show (List.take (wl.top + 1).toNat (List.set _ _ obj)).reverse = _
        rw [hsucc, items_set (by rw [resizeArray_length]; omega),
          resizeArray_take htop (by omega)]
        rfl
    · refine .inr ⟨m.calls + 1, ?_⟩
      simp only [hok]
      rfl

/-- Popping the empty stack gives `NULL`. -/
theorem pop_nil {wl : GcWorklist} (h : wl.Ok) (hi : wl.items = []) :
    gcWorklistPop wl = (wl, 0) := by
  have hlen := congrArg List.length hi
  simp only [items, List.length_reverse, List.length_take, List.length_nil] at hlen
  have := h.top_nonneg
  have := h.top_le
  have := h.length
  rw [gcWorklistPop, if_pos (by omega)]

/-- Popping takes the object on top. -/
theorem pop_cons {wl : GcWorklist} (h : wl.Ok) {x : Nat} {xs : List Nat}
    (hi : wl.items = x :: xs) :
    ∃ wl', gcWorklistPop wl = (wl', x) ∧ wl'.Ok ∧ wl'.items = xs ∧ wl'.data = wl.data ∧
      wl'.capacity = wl.capacity := by
  obtain ⟨h0, hle, hlen, hcap⟩ := h
  have hpos : 0 < wl.top := by
    by_contra hn
    have htop : wl.top.toNat = 0 := by omega
    simp [items, htop] at hi
  have hlt : (wl.top - 1).toNat < wl.data.length := by omega
  have hsucc : wl.top.toNat = (wl.top - 1).toNat + 1 := by omega
  rw [items, hsucc, List.take_add_one, List.reverse_append, List.getElem?_eq_getElem hlt] at hi
  simp only [Option.toList_some, List.reverse_singleton, List.singleton_append,
    List.cons.injEq] at hi
  refine ⟨{ wl with top := wl.top - 1 }, ?_, ⟨?_, ?_, hlen, hcap⟩, hi.2, rfl, rfl⟩
  · rw [gcWorklistPop, if_neg (by omega), List.getD_eq_getElem?_getD, List.getElem?_eq_getElem hlt,
      Option.getD_some, hi.1]
  · show 0 ≤ wl.top - 1; omega
  · show wl.top - 1 ≤ wl.capacity; omega

end GcWorklist

end Xgc
