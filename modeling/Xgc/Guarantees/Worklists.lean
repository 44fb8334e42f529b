import Xgc.Core.Worklist
import Mathlib.Data.Nat.Log

/-! The worklist as a stack, over whole runs. Its capacity is an `int` that doubles, so that a list
    that started with capacity `c` can hold as many objects as the largest doubling of `c` that is
    still an `int`; the object after that one is dropped. -/

namespace Xgc

/-- A call of `worklist.c`. -/
inductive StackOp
  | push (obj : Nat)
  | pop

/-- The largest number that doublings of a capacity reach before they leave `int`; an empty list
    starts with sixteen. -/
def capacityLimit (capacity : Int) : Nat :=
  let first := if 0 < capacity then capacity.toNat else 16
  first * 2 ^ (30 - Nat.log 2 first)

namespace StackOp

def perform (s : GcWorklist × Mem) : StackOp → GcWorklist × Mem
  | push obj => ((gcWorklistPush s.1 obj s.2).1, (gcWorklistPush s.1 obj s.2).2.1)
  | pop => ((gcWorklistPop s.1).1, s.2)

/-- The same call on a stack. -/
def apply (xs : List Nat) : StackOp → List Nat
  | push obj => obj :: xs
  | pop => xs.tail

/-- The call pushes no `NULL`. -/
def Legal : StackOp → Prop
  | push obj => obj ≠ 0
  | pop => True

/-- A call that finds the stack `xs` and may keep `limit` objects has room for what it pushes and
    does not pop a `NULL`. -/
def Fits (limit : Nat) (xs : List Nat) : StackOp → Prop
  | push _ => xs.length < limit
  | pop => xs.head? ≠ some 0

instance (limit : Nat) (xs : List Nat) : (op : StackOp) → Decidable (op.Fits limit xs)
  | push _ => inferInstanceAs (Decidable (_ < _))
  | pop => inferInstanceAs (Decidable (_ ≠ _))

end StackOp

/-- Every call of the list fits, from the stack `xs` on. -/
def AllFit (limit : Nat) : List Nat → List StackOp → Prop
  | _, [] => True
  | xs, op :: ops => op.Fits limit xs ∧ AllFit limit (op.apply xs) ops

instance (limit : Nat) : (xs : List Nat) → (ops : List StackOp) → Decidable (AllFit limit xs ops)
  | _, [] => isTrue trivial
  | xs, op :: ops =>
    have := instDecidableAllFit limit (op.apply xs) ops
    inferInstanceAs (Decidable (_ ∧ _))

/-- What a call promises where the stack is `xs`. -/
structure CallKeeps (s : GcWorklist × Mem) (xs : List Nat) (op : StackOp) : Prop where
  noOverflow : ∀ obj, op = .push obj → s.1.capacity ≤ s.1.top → 0 < s.1.capacity →
    s.1.capacity * 2 < 2 ^ 31
  notDropped : ∀ obj, op = .push obj → (gcWorklistPush s.1 obj s.2).2.2 = true
  items : (op.perform s).1.items = op.apply xs
  popped : op = .pop → (gcWorklistPop s.1).2 = xs.headD 0 ∧ ((gcWorklistPop s.1).2 = 0 ↔ xs = [])
  check : gcWorklistCheckInvariants (op.perform s).1 = true

/-- Every call of the list keeps its promises, where the stack is `xs` to begin with. -/
def Lossless : GcWorklist × Mem → List Nat → List StackOp → Prop
  | _, _, [] => True
  | s, xs, op :: ops => CallKeeps s xs op ∧ Lossless (op.perform s) (op.apply xs) ops

/-- `realloc` grants every array of pointers whose length is an `int`. -/
def Mem.GrantsArrays (m : Mem) : Prop :=
  ∀ k n, n ≤ (2 ^ 31 - 1) * 8 → (({ m with calls := k } : Mem).tryReserve n).2 = true

/-! ### The limit of a capacity -/

theorem capacityLimit_of_pos {c : Int} (h : 0 < c) :
    capacityLimit c = c.toNat * 2 ^ (30 - Nat.log 2 c.toNat) := by
  simp only [capacityLimit, if_pos h]

/-- Doubling keeps the limit. -/
theorem capacityLimit_double {c : Int} (h : 0 < c) (h' : c < 2 ^ 30) :
    capacityLimit (c * 2) = capacityLimit c := by
  have hne : c.toNat ≠ 0 := by omega
  have hlog : Nat.log 2 c.toNat < 30 := Nat.log_lt_of_lt_pow hne (by omega)
  have hdouble : (c * 2).toNat = c.toNat * 2 := by omega
  have hexp : 30 - Nat.log 2 c.toNat = 30 - (Nat.log 2 c.toNat + 1) + 1 := by omega
  rw [capacityLimit_of_pos (by omega), capacityLimit_of_pos h, hdouble,
    Nat.log_mul_base (by decide) hne, hexp, pow_succ, mul_assoc,
    mul_comm 2 (2 ^ (30 - (Nat.log 2 c.toNat + 1)))]

theorem capacityLimit_zero : capacityLimit 16 = capacityLimit 0 := rfl

/-- A capacity that cannot be doubled is its own limit. -/
theorem capacityLimit_big {c : Int} (h : 2 ^ 30 ≤ c) (h' : c < 2 ^ 31) :
    capacityLimit c = c.toNat := by
  have hlog : Nat.log 2 c.toNat = 30 :=
    Nat.log_eq_of_pow_le_of_lt_pow (by omega) (by omega)
  rw [capacityLimit_of_pos (by omega), hlog, Nat.sub_self, pow_zero, mul_one]

/-- No limit is below half the range of `int`. -/
theorem le_capacityLimit {c : Int} (h : c < 2 ^ 31) : 2 ^ 30 ≤ capacityLimit c := by
  unfold capacityLimit
  set first := if 0 < c then c.toNat else 16 with hfirst
  have hne : first ≠ 0 := by
    rw [hfirst]
    split <;> omega
  have hlt : first < 2 ^ 31 := by
    rw [hfirst]
    split <;> omega
  have hlog : Nat.log 2 first ≤ 30 := Nat.le_of_lt_succ (Nat.log_lt_of_lt_pow hne hlt)
  calc 2 ^ 30 = 2 ^ Nat.log 2 first * 2 ^ (30 - Nat.log 2 first) := by
        rw [← pow_add, Nat.add_sub_cancel' hlog]
    _ ≤ first * 2 ^ (30 - Nat.log 2 first) :=
        Nat.mul_le_mul_right _ (Nat.pow_log_le_self 2 hne)

namespace GcWorklist

theorem items_length {wl : GcWorklist} (h : wl.Ok) : wl.items.length = wl.top.toNat := by
  have := h.top_le
  have := h.length
  simp only [items, List.length_reverse, List.length_take]
  omega

/-- A stack is below the limit unless it is full and cannot grow. -/
theorem lt_capacityLimit_iff {wl : GcWorklist} (h : wl.Ok) :
    wl.items.length < capacityLimit wl.capacity ↔ wl.top < wl.capacity ∨ wl.capacity < 2 ^ 30 := by
  rw [items_length h]
  obtain ⟨h0, hle, -, hcap⟩ := h
  by_cases hbig : 2 ^ 30 ≤ wl.capacity
  · rw [capacityLimit_big hbig hcap]
    omega
  · have := le_capacityLimit hcap
    omega

/-- The invariants of the source, for a list whose buffer has `capacity` elements. -/
theorem ok_iff_check {wl : GcWorklist} (hlen : (wl.data.length : Int) = wl.capacity)
    (hcap : wl.capacity < 2 ^ 31) : gcWorklistCheckInvariants wl = true ↔ wl.Ok := by
  have hnil : wl.data = [] ↔ wl.capacity = 0 := by
    rw [← List.length_eq_zero_iff]
    omega
  unfold gcWorklistCheckInvariants
  constructor
  · intro h
    by_cases hr : wl.top < 0 ∨ wl.top > wl.capacity
    · rw [if_pos hr] at h
      exact nomatch h
    · exact ⟨by omega, by omega, hlen, hcap⟩
  · rintro ⟨h0, hle, -, -⟩
    rw [if_neg (by omega)]
    by_cases hz : wl.capacity = 0
    · rw [if_pos hz, if_neg (not_or.mpr ⟨not_not.mpr (hnil.mpr hz), by omega⟩)]
    · rw [if_neg hz, if_neg (fun he => hz (hnil.mp he))]

/-- The capacity that a full list asks for. -/
theorem push_full {wl : GcWorklist} {obj : Nat} (hobj : obj ≠ 0) (hfull : ¬ wl.top < wl.capacity)
    (m : Mem) {c : Int} (hc : (if 0 < wl.capacity then wrapInt (wl.capacity * 2) else 16) = c) :
    gcWorklistPush wl obj m =
      if (m.tryReserve (toSize c * 8 % 2 ^ 64)).2 = true then
        ({ data := (resizeArray wl.data (toSize c)).set wl.top.toNat obj, top := wl.top + 1,
           capacity := c }, (m.tryReserve (toSize c * 8 % 2 ^ 64)).1, true)
      else (wl, (m.tryReserve (toSize c * 8 % 2 ^ 64)).1, false) := by
  subst hc
  rw [gcWorklistPush, if_neg hobj, if_neg hfull]

/-- Half of the range of `int` can be doubled. -/
theorem wrapInt_double {c : Int} (h : 0 < c) (h' : c < 2 ^ 30) : wrapInt (c * 2) = c * 2 := by
  unfold wrapInt
  omega

/-- When arrays are granted, a push drops its object exactly when the stack is full and its capacity
    cannot be doubled. -/
theorem push_granted {wl : GcWorklist} (h : wl.Ok) {obj : Nat} (hobj : obj ≠ 0) {m : Mem}
    (hm : m.GrantsArrays) :
    (gcWorklistPush wl obj m).2.2 = true ↔ wl.top < wl.capacity ∨ wl.capacity < 2 ^ 30 := by
  have hcap := h.capacity_lt
  by_cases hroom : wl.top < wl.capacity
  · rw [gcWorklistPush, if_neg hobj, if_pos hroom]
    exact iff_of_true rfl (.inl hroom)
  rw [push_full hobj hroom m rfl]
  by_cases hbig : 2 ^ 30 ≤ wl.capacity
  · -- the doubled capacity is negative, and asks for more than there is
    have hsize := size_of_overflow hbig hcap
    rw [← Nat.not_le] at hsize
    rw [if_pos (show 0 < wl.capacity by omega), if_neg (by simp only [Mem.tryReserve,
      decide_eq_false hsize, Bool.and_false, Bool.false_eq_true, not_false_eq_true])]
    exact iff_of_false Bool.false_ne_true (by omega)
  · have hgranted : (m.tryReserve (toSize (if 0 < wl.capacity then wrapInt (wl.capacity * 2) else 16)
        * 8 % 2 ^ 64)).2 = true := by
      refine hm m.calls _ ?_
      unfold toSize wrapInt
      split <;> omega
    rw [if_pos hgranted]
    exact iff_of_true rfl (.inr (by omega))

/-- A push keeps the limit of the capacity. -/
theorem push_capacityLimit {wl : GcWorklist} (h : wl.Ok) {obj : Nat} (hobj : obj ≠ 0) (m : Mem)
    (hroom : wl.top < wl.capacity ∨ wl.capacity < 2 ^ 30) :
    capacityLimit (gcWorklistPush wl obj m).1.capacity = capacityLimit wl.capacity := by
  by_cases hlt : wl.top < wl.capacity
  · rw [gcWorklistPush, if_neg hobj, if_pos hlt]
  have hdouble : capacityLimit (if 0 < wl.capacity then wrapInt (wl.capacity * 2) else 16) =
      capacityLimit wl.capacity := by
    by_cases hpos : 0 < wl.capacity
    · have hsmall := hroom.resolve_left hlt
      rw [if_pos hpos, wrapInt_double hpos hsmall, capacityLimit_double hpos hsmall]
    · have hz : wl.capacity = 0 := le_antisymm (not_lt.mp hpos) (h.top_nonneg.trans h.top_le)
      rw [if_neg hpos, hz, capacityLimit_zero]
  rw [push_full hobj hlt m rfl]
  by_cases hok : (m.tryReserve (toSize (if 0 < wl.capacity then wrapInt (wl.capacity * 2) else 16)
      * 8 % 2 ^ 64)).2 = true
  · rw [if_pos hok, hdouble]
  · rw [if_neg hok]

end GcWorklist

open GcWorklist

/-! ### One call -/

/-- A worklist that stands for the stack `xs` and may keep `limit` objects. -/
structure StandsFor (limit : Nat) (s : GcWorklist × Mem) (xs : List Nat) : Prop where
  ok : s.1.Ok
  items : s.1.items = xs
  limit : capacityLimit s.1.capacity = limit
  grants : s.2.GrantsArrays

/-- A call that fits keeps its promises, and the next call finds the worklist in order. -/
theorem StandsFor.step {limit : Nat} {s : GcWorklist × Mem} {xs : List Nat} {op : StackOp}
    (h : StandsFor limit s xs) (hop : op.Legal) (hfit : op.Fits limit xs) :
    CallKeeps s xs op ∧ StandsFor limit (op.perform s) (op.apply xs) := by
  obtain ⟨hok, rfl, rfl, hm⟩ := h
  cases op with
  | push obj =>
    have hroom := (lt_capacityLimit_iff hok).mp hfit
    have hflag := (push_granted hok hop hm).mpr hroom
    have hlimit := push_capacityLimit hok hop s.2 hroom
    rcases push_cases hok hop s.2 with ⟨wl, m, heq, hok', hitems, k, rfl⟩ | ⟨k, heq⟩
    · have hperform : StackOp.perform s (.push obj) = (wl, { s.2 with calls := k }) := by
        simp only [StackOp.perform, heq]
      rw [heq] at hlimit
      refine ⟨⟨?_, ?_, by rw [hperform]; exact hitems, nofun, ?_⟩, ?_⟩
      · rintro _ - hfull -
        have := hok.top_le
        omega
      · rintro _ ⟨⟩
        exact hflag
      · rw [hperform]
        exact (ok_iff_check hok'.length hok'.capacity_lt).mpr hok'
      · rw [hperform]
        exact ⟨hok', hitems, hlimit, hm⟩
    · rw [heq] at hflag
      exact nomatch hflag
  | pop =>
    have hpop : ∃ wl, gcWorklistPop s.1 = (wl, s.1.items.headD 0) ∧ wl.Ok ∧
        wl.items = s.1.items.tail ∧ wl.capacity = s.1.capacity := by
      rcases hxs : s.1.items with _ | ⟨x, xs⟩
      · exact ⟨s.1, pop_nil hok hxs, hok, hxs, rfl⟩
      · obtain ⟨wl, heq, hok', hitems, -, hcap⟩ := pop_cons hok hxs
        exact ⟨wl, heq, hok', hitems, hcap⟩
    obtain ⟨wl, heq, hok', hitems, hcap⟩ := hpop
    have hperform : StackOp.perform s .pop = (wl, s.2) := by simp only [StackOp.perform, heq]
    refine ⟨⟨nofun, nofun, by rw [hperform]; exact hitems, fun _ => ?_, ?_⟩, ?_⟩
    · rw [heq]
      refine ⟨rfl, fun hz => ?_, fun hnil => by rw [hnil]; rfl⟩
      rcases hxs : s.1.items with _ | ⟨x, xs⟩
      · rfl
      · rw [hxs] at hz
        exact absurd (by rw [hxs, ← hz]; rfl) hfit
    · rw [hperform]
      exact (ok_iff_check hok'.length hok'.capacity_lt).mpr hok'
    · rw [hperform]
      exact ⟨hok', hitems, by rw [hcap], hm⟩

/-- A call that does not fit breaks a promise. -/
theorem StandsFor.fits {limit : Nat} {s : GcWorklist × Mem} {xs : List Nat} {op : StackOp}
    (h : StandsFor limit s xs) (hop : op.Legal) (hkeep : CallKeeps s xs op) : op.Fits limit xs := by
  obtain ⟨hok, rfl, rfl, hm⟩ := h
  cases op with
  | push obj =>
    exact (lt_capacityLimit_iff hok).mpr ((push_granted hok hop hm).mp (hkeep.notDropped obj rfl))
  | pop =>
    intro hnull
    obtain ⟨hhead, hzero⟩ := hkeep.popped rfl
    have hpopped : (gcWorklistPop s.1).2 = 0 := by
      rw [hhead, List.headD_eq_head?_getD, hnull]
      rfl
    rw [hzero.mp hpopped] at hnull
    exact nomatch hnull

/-! ### Runs -/

theorem StandsFor.lossless_iff {limit : Nat} : ∀ {ops : List StackOp} {s : GcWorklist × Mem}
    {xs : List Nat}, StandsFor limit s xs → (∀ op ∈ ops, op.Legal) →
    (Lossless s xs ops ↔ AllFit limit xs ops)
  | [], _, _, _, _ => Iff.rfl
  | op :: ops, s, xs, h, hops => by
      have hop := hops op (List.mem_cons_self ..)
      have hrest : ∀ op ∈ ops, op.Legal := fun a ha => hops a (List.mem_cons_of_mem _ ha)
      constructor
      · rintro ⟨hkeep, hl⟩
        have hfit := h.fits hop hkeep
        exact ⟨hfit, ((h.step hop hfit).2.lossless_iff hrest).mp hl⟩
      · rintro ⟨hfit, hall⟩
        obtain ⟨hkeep, hnext⟩ := h.step hop hfit
        exact ⟨hkeep, (hnext.lossless_iff hrest).mpr hall⟩

theorem StandsFor.of_check {wl : GcWorklist} (hcheck : gcWorklistCheckInvariants wl = true)
    (hbuf : (wl.data.length : Int) = wl.capacity) (hint : wl.capacity < 2 ^ 31) {m : Mem}
    (hm : m.GrantsArrays) : StandsFor (capacityLimit wl.capacity) (wl, m) wl.items :=
  ⟨(ok_iff_check hbuf hint).mp hcheck, rfl, rfl, hm⟩

/-- A worklist is a lossless stack over a run exactly as long as the stack stays within the largest
    doubling of the first capacity that is an `int`, and no `NULL` is popped that was there before. -/
theorem worklist_lossless_iff {wl : GcWorklist} (hcheck : gcWorklistCheckInvariants wl = true)
    (hbuf : (wl.data.length : Int) = wl.capacity) (hint : wl.capacity < 2 ^ 31) {m : Mem}
    (hm : m.GrantsArrays) {ops : List StackOp} (hops : ∀ op ∈ ops, op.Legal) :
    Lossless (wl, m) wl.items ops ↔ AllFit (capacityLimit wl.capacity) wl.items ops :=
  (StandsFor.of_check hcheck hbuf hint hm).lossless_iff hops

/-- An allocator that grants every request of a possible size. -/
def grantingMem : Mem := ⟨fun k => some (2 ^ 20 * (k + 1)), 0, [], false, false⟩

theorem grantingMem_grants : grantingMem.GrantsArrays := by
  intro k n hn
  have hle : n ≤ ptrdiffMax := by
    unfold ptrdiffMax
    omega
  simp [Mem.tryReserve, grantingMem, hle]

/-- The worklist of a new runtime. -/
def emptyWorklist : GcWorklist := ⟨[], 0, 0⟩

theorem worklist_lossless_sample :
    Lossless (emptyWorklist, grantingMem) emptyWorklist.items
      [.push 8, .push 16, .pop, .pop, .pop] := by
  have hint : emptyWorklist.capacity < 2 ^ 31 := by decide
  exact (worklist_lossless_iff rfl rfl hint grantingMem_grants (by simp [StackOp.Legal])).mpr
    (by decide)

/-- Pushes in a row fit until the limit is reached. -/
theorem AllFit.replicate {limit obj : Nat} : ∀ {n : Nat} {xs : List Nat},
    AllFit limit xs (List.replicate (n + 1) (.push obj)) → xs.length + n < limit
  | 0, _, h => h.1
  | n + 1, xs, h => by
      have hrest : (obj :: xs).length + n < limit := AllFit.replicate h.2
      rw [List.length_cons] at hrest
      omega

/-- An empty worklist that is pushed `2^30 + 1` objects does not keep them all, although every array
    is granted. -/
theorem worklist_drops : ∃ wl m ops, gcWorklistCheckInvariants wl = true ∧
    (wl.data.length : Int) = wl.capacity ∧ m.GrantsArrays ∧ (∀ op ∈ ops, op.Legal) ∧
    ¬ Lossless (wl, m) wl.items ops := by
  have hlegal : ∀ op ∈ List.replicate (2 ^ 30 + 1) (StackOp.push 8), op.Legal := by
    intro op hop
    rw [List.eq_of_mem_replicate hop]
    exact Nat.succ_ne_zero 7
  refine ⟨emptyWorklist, grantingMem, List.replicate (2 ^ 30 + 1) (.push 8), rfl, rfl,
    grantingMem_grants, hlegal, fun h => ?_⟩
  have hint : emptyWorklist.capacity < 2 ^ 31 := by decide
  have hstart := StandsFor.of_check (by rfl) rfl hint grantingMem_grants
  have hlt := ((hstart.lossless_iff hlegal).mp h).replicate
  have hlimit : capacityLimit emptyWorklist.capacity = 2 ^ 30 := by decide
  rw [hlimit] at hlt
  exact absurd hlt (by decide)

end Xgc
