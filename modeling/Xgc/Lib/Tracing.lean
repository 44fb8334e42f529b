import Mathlib.Data.List.Perm.Subperm
import Mathlib.Data.List.Nodup
import Xgc.Lib.Runs

/-! What a tracing loop does with its worklist, event by event.

    A push may be dropped for want of room, so the pushed nodes are those that have been popped, those
    still on the stack, and perhaps some more. A loop that tries to push each node at most once pops
    each node at most once, and neither its pops nor its stack outnumber the nodes. -/

namespace Xgc.Lib

variable {α : Type*}

/-- What one step does with the worklist. -/
inductive TraceEvent (α : Type*)
  | push (x : α)
  | pop (x : α)
  | other

/-- The nodes that were to be pushed, in their order. -/
def pushed (events : List (TraceEvent α)) : List α :=
  events.filterMap fun
    | .push x => some x
    | _ => none

/-- The nodes that were popped, in their order. -/
def popped (events : List (TraceEvent α)) : List α :=
  events.filterMap fun
    | .pop x => some x
    | _ => none

section

variable (events events' : List (TraceEvent α)) (x : α)

@[simp] theorem pushed_nil : pushed ([] : List (TraceEvent α)) = [] := rfl
@[simp] theorem popped_nil : popped ([] : List (TraceEvent α)) = [] := rfl
@[simp] theorem pushed_append : pushed (events ++ events') = pushed events ++ pushed events' :=
  List.filterMap_append
@[simp] theorem popped_append : popped (events ++ events') = popped events ++ popped events' :=
  List.filterMap_append
@[simp] theorem pushed_push : pushed [.push x] = [x] := rfl
@[simp] theorem pushed_pop : pushed [.pop x] = [] := rfl
@[simp] theorem pushed_other : pushed ([.other] : List (TraceEvent α)) = [] := rfl
@[simp] theorem popped_push : popped [.push x] = [] := rfl
@[simp] theorem popped_pop : popped [.pop x] = [x] := rfl
@[simp] theorem popped_other : popped ([.other] : List (TraceEvent α)) = [] := rfl

end

/-- What has been popped and what is on the stack has been pushed. -/
def Balanced (events : List (TraceEvent α)) (stack : List α) : Prop :=
  (popped events ++ stack).Subperm (pushed events)

namespace Balanced

variable {events : List (TraceEvent α)} {stack : List α} {x : α}

theorem nil : Balanced ([] : List (TraceEvent α)) [] := List.Subperm.refl _

theorem push (h : Balanced events stack) : Balanced (events ++ [.push x]) (x :: stack) := by
  have hleft : (popped events ++ x :: stack).Perm (x :: (popped events ++ stack)) :=
    List.perm_middle
  have hright : (pushed events ++ [x]).Perm (x :: pushed events) := List.perm_append_singleton x _
  simp only [Balanced, popped_append, popped_push, List.append_nil, pushed_append, pushed_push]
  rw [hleft.subperm_right, hright.subperm_left]
  exact (List.subperm_cons x).mpr h

theorem drop (h : Balanced events stack) : Balanced (events ++ [.push x]) stack := by
  simp only [Balanced, popped_append, popped_push, List.append_nil, pushed_append, pushed_push]
  exact h.trans (List.sublist_append_left _ _).subperm

theorem pop (h : Balanced events (x :: stack)) : Balanced (events ++ [.pop x]) stack := by
  simpa [Balanced] using h

theorem other (h : Balanced events stack) : Balanced (events ++ [.other]) stack := by
  simpa [Balanced] using h

/-- Pops and stack together do not outnumber the pushes. -/
theorem length_le (h : Balanced events stack) :
    (popped events).length + stack.length ≤ (pushed events).length := by
  rw [← List.length_append]
  exact List.Subperm.length_le h

end Balanced

/-- Each node has been pushed at most once and popped at most once, with no more than `n` pops and no
    more than `n` nodes on the stack. -/
structure OnceEach (n : Nat) (events : List (TraceEvent α)) (stack : List α) : Prop where
  pushedOnce : (pushed events).Nodup
  poppedOnce : (popped events).Nodup
  poppedPushed : ∀ x ∈ popped events, x ∈ pushed events
  pops_le : (popped events).length ≤ n
  height_le : stack.length ≤ n

theorem Balanced.onceEach {events : List (TraceEvent α)} {stack : List α} (h : Balanced events stack)
    (hnodup : (pushed events).Nodup) {n : Nat} (hn : (pushed events).length ≤ n) :
    OnceEach n events stack := by
  have hlen := h.length_le
  obtain ⟨l, hperm, hsub⟩ := h
  have hall : (popped events ++ stack).Nodup := hperm.nodup_iff.mp (hnodup.sublist hsub)
  refine ⟨hnodup, (List.nodup_append.mp hall).1, fun x hx => ?_, by omega, by omega⟩
  exact hsub.subset (hperm.mem_iff.mpr (List.mem_append_left _ hx))

/-- A loop with fuel that takes one node off the stack in each round and stops when there is none ends
    by itself, when its rounds and the pops before it can be as many as the pushes. -/
theorem drain_ends {S R : Type*} (Step : S → TraceEvent α → S → Prop)
    (Inv : S → List (TraceEvent α) → Prop) {stack : S → List α} {n : Nat} {loop : Nat → S → R}
    {ret : S → R}
    (hrun : ∀ {s t events more}, Inv s events → Run Step s more t → Inv t (events ++ more))
    (hbalanced : ∀ {s events}, Inv s events → Balanced events (stack s))
    (hpushed : ∀ {s events}, Inv s events → (pushed events).length ≤ n)
    (hend : ∀ {s events} fuel, Inv s events → stack s = [] → loop fuel s = ret s)
    (hround : ∀ {s events x rest} fuel, Inv s events → stack s = x :: rest →
      ∃ t more, Run Step s ([.pop x] ++ more) t ∧ loop (fuel + 1) s = loop fuel t)
    (fuel : Nat) {s : S} {events : List (TraceEvent α)} (h : Inv s events)
    (hfuel : n ≤ (popped events).length + fuel) :
    ∃ t more, Run Step s more t ∧ stack t = [] ∧ loop fuel s = ret t := by
  induction fuel generalizing s events with
  | zero =>
    have hlen := (hbalanced h).length_le
    have hn := hpushed h
    have hempty : stack s = [] := List.eq_nil_of_length_eq_zero (by omega)
    exact ⟨s, [], .nil s, hempty, hend 0 h hempty⟩
  | succ fuel ih =>
    cases hs : stack s with
    | nil => exact ⟨s, [], .nil s, hs, hend _ h hs⟩
    | cons x rest =>
      obtain ⟨t, more, hround', heq⟩ := hround fuel h hs
      obtain ⟨u, more', hrest, hu, heq'⟩ := ih (hrun h hround') (by
        simp only [popped_append, popped_pop, List.length_append, List.length_singleton]
        omega)
      exact ⟨u, _, hround'.trans hrest, hu, heq.trans heq'⟩

end Xgc.Lib
