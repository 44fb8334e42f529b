import Mathlib.Data.Set.Insert
import Mathlib.Tactic.Tauto

/-! Reachability in a directed graph and the tri-colour invariant of a marking loop.

    `Reach R E` is the least set that contains the roots `R` and is closed under the edges `E`. A
    marking loop keeps three disjoint classes of marked nodes: *traced* (its edges have been
    followed), *gray* (waiting on the worklist) and *dropped* (marked, but the worklist had no room
    for it, so its edges are never followed). `Tricolour` is what every step of such a loop keeps;
    when nothing is gray or pending any more, the marked nodes are exactly those reachable along
    edges that leave no dropped node. -/

namespace Xgc.Lib

variable {α β : Type*}

/-- The nodes reachable from the roots `R` along the edges `E`. -/
inductive Reach (R : Set α) (E : α → α → Prop) : α → Prop
  | root {x : α} : x ∈ R → Reach R E x
  | step {x y : α} : Reach R E x → E x y → Reach R E y

/-- A set that holds the roots and is closed under the edges holds everything reachable. -/
theorem Reach.mem_of_closed {R S : Set α} {E : α → α → Prop} (hR : ∀ x ∈ R, x ∈ S)
    (hE : ∀ x y, x ∈ S → E x y → y ∈ S) : ∀ {x}, Reach R E x → x ∈ S
  | _, .root h => hR _ h
  | _, .step h e => hE _ _ (h.mem_of_closed hR hE) e

theorem Reach.mono {R R' : Set α} {E E' : α → α → Prop} (hR : R ⊆ R')
    (hE : ∀ x y, E x y → E' x y) : ∀ {x}, Reach R E x → Reach R' E' x
  | _, .root h => .root (hR h)
  | _, .step h e => .step (h.mono hR hE) (hE _ _ e)

/-- A map of nodes that sends roots to roots and edges out of reachable nodes to edges preserves
    reachability. -/
theorem Reach.map {R : Set α} {E : α → α → Prop} {R' : Set β} {E' : β → β → Prop} (f : α → β)
    (hR : ∀ x ∈ R, f x ∈ R') (hE : ∀ x y, Reach R E x → E x y → E' (f x) (f y)) :
    ∀ {x}, Reach R E x → Reach R' E' (f x)
  | _, .root h => .root (hR _ h)
  | _, .step h e => .step (h.map f hR hE) (hE _ _ h e)

/-- Only the edges out of reachable nodes matter. -/
theorem Reach.congr {R : Set α} {E E' : α → α → Prop} (hE : ∀ x y, Reach R E x → E x y → E' x y)
    {x : α} (h : Reach R E x) : Reach R E' x :=
  h.map id (fun _ hx => hx) hE

/-- The tri-colour invariant of a marking loop over the graph `(R, E)`: `pending` are the nodes
    the loop still has to look at. -/
structure Tricolour (R : Set α) (E : α → α → Prop) (marked traced gray dropped pending : Set α) :
    Prop where
  split : ∀ x, x ∈ marked ↔ x ∈ traced ∨ x ∈ gray ∨ x ∈ dropped
  tracedGray : ∀ x ∈ traced, x ∉ gray
  tracedDropped : ∀ x ∈ traced, x ∉ dropped
  grayDropped : ∀ x ∈ gray, x ∉ dropped
  sound : ∀ x ∈ marked, Reach R (fun a b => a ∈ traced ∧ E a b) x
  soundPending : ∀ x ∈ pending, Reach R (fun a b => a ∈ traced ∧ E a b) x
  roots : ∀ x ∈ R, x ∈ marked ∨ x ∈ pending
  edges : ∀ x ∈ traced, ∀ y, E x y → y ∈ marked ∨ y ∈ pending

namespace Tricolour

variable {R : Set α} {E : α → α → Prop} {marked traced gray dropped pending : Set α}

/-- Before the loop nothing is marked and the roots are pending. -/
theorem init (R : Set α) (E : α → α → Prop) : Tricolour R E ∅ ∅ ∅ ∅ R where
  split := by simp
  tracedGray := by simp
  tracedDropped := by simp
  grayDropped := by simp
  sound := by simp
  soundPending := fun _ hx => .root hx
  roots := fun _ hx => .inr hx
  edges := by simp

/-- Pending nodes that are marked can be forgotten. -/
theorem forget (h : Tricolour R E marked traced gray dropped pending) {pending' : Set α}
    (hsub : pending' ⊆ pending) (hseen : ∀ x ∈ pending, x ∈ marked ∨ x ∈ pending') :
    Tricolour R E marked traced gray dropped pending' where
  split := h.split
  tracedGray := h.tracedGray
  tracedDropped := h.tracedDropped
  grayDropped := h.grayDropped
  sound := h.sound
  soundPending := fun x hx => h.soundPending x (hsub hx)
  roots := fun x hx => (h.roots x hx).elim .inl (hseen x)
  edges := fun x hx y hy => (h.edges x hx y hy).elim .inl (hseen y)

/-- Marking a node that has been found and putting it on the worklist. -/
theorem shade (h : Tricolour R E marked traced gray dropped pending) {y : α}
    (hy : Reach R (fun a b => a ∈ traced ∧ E a b) y) (hn : y ∉ marked) :
    Tricolour R E (insert y marked) traced (insert y gray) dropped pending where
  split x := by rw [Set.mem_insert_iff, Set.mem_insert_iff, h.split]; tauto
  tracedGray x hx := by
    rintro (rfl | hg)
    · exact hn ((h.split x).mpr (.inl hx))
    · exact h.tracedGray x hx hg
  tracedDropped := h.tracedDropped
  grayDropped x hx := by
    rcases hx with rfl | hg
    · exact fun hd => hn ((h.split x).mpr (.inr (.inr hd)))
    · exact h.grayDropped x hg
  sound x hx := by
    rcases hx with rfl | hm
    · exact hy
    · exact h.sound x hm
  soundPending := h.soundPending
  roots x hx := (h.roots x hx).imp_left (Set.mem_insert_of_mem y)
  edges x hx z hz := (h.edges x hx z hz).imp_left (Set.mem_insert_of_mem y)

/-- Marking a node that has been found and that the worklist has no room for. -/
theorem drop (h : Tricolour R E marked traced gray dropped pending) {y : α}
    (hy : Reach R (fun a b => a ∈ traced ∧ E a b) y) (hn : y ∉ marked) :
    Tricolour R E (insert y marked) traced gray (insert y dropped) pending where
  split x := by rw [Set.mem_insert_iff, Set.mem_insert_iff, h.split]; tauto
  tracedGray := h.tracedGray
  tracedDropped x hx := by
    rintro (rfl | hd)
    · exact hn ((h.split x).mpr (.inl hx))
    · exact h.tracedDropped x hx hd
  grayDropped x hx := by
    rintro (rfl | hd)
    · exact hn ((h.split x).mpr (.inr (.inl hx)))
    · exact h.grayDropped x hx hd
  sound x hx := by
    rcases hx with rfl | hm
    · exact hy
    · exact h.sound x hm
  soundPending := h.soundPending
  roots x hx := (h.roots x hx).imp_left (Set.mem_insert_of_mem y)
  edges x hx z hz := (h.edges x hx z hz).imp_left (Set.mem_insert_of_mem y)

/-- Taking a node off the worklist makes its successors pending. -/
theorem pop (h : Tricolour R E marked traced gray dropped pending) {y : α} (hy : y ∈ gray) :
    Tricolour R E marked (insert y traced) (gray \ {y}) dropped (pending ∪ {z | E y z}) where
  split x := by
    rw [h.split, Set.mem_insert_iff, Set.mem_sdiff, Set.mem_singleton_iff]
    by_cases hxy : x = y
    · subst hxy; simp [hy]
    · simp [hxy]
  tracedGray x hx := by
    rintro ⟨hg, hne⟩
    rcases hx with rfl | ht
    · exact hne rfl
    · exact h.tracedGray x ht hg
  tracedDropped x hx := by
    rcases hx with rfl | ht
    · exact h.grayDropped x hy
    · exact h.tracedDropped x ht
  grayDropped x hx := h.grayDropped x hx.1
  sound x hx := (h.sound x hx).mono subset_rfl fun a b hab => ⟨.inr hab.1, hab.2⟩
  soundPending x hx := by
    rcases hx with hp | he
    · exact (h.soundPending x hp).mono subset_rfl fun a b hab => ⟨.inr hab.1, hab.2⟩
    · have hry := h.sound y ((h.split y).mpr (.inr (.inl hy)))
      exact .step (hry.mono subset_rfl fun a b hab => ⟨.inr hab.1, hab.2⟩) ⟨.inl rfl, he⟩
  roots x hx := (h.roots x hx).imp_right .inl
  edges x hx z hz := by
    rcases hx with rfl | ht
    · exact .inr (.inr hz)
    · exact (h.edges x ht z hz).imp_right .inl

/-- When nothing is gray or pending, the marked nodes are those reachable along edges that leave
    no dropped node. -/
theorem marked_iff (h : Tricolour R E marked traced ∅ dropped ∅) (x : α) :
    x ∈ marked ↔ Reach R (fun a b => a ∉ dropped ∧ E a b) x := by
  refine ⟨fun hx => ?_, fun hx => ?_⟩
  · exact (h.sound x hx).mono subset_rfl fun a b hab => ⟨h.tracedDropped a hab.1, hab.2⟩
  · refine hx.mem_of_closed (fun y hy => ?_) (fun y z hy hyz => ?_)
    · exact (h.roots y hy).resolve_right (Set.notMem_empty y)
    · have ht : y ∈ traced := by
        rcases (h.split y).mp hy with ht | hg | hd
        · exact ht
        · exact absurd hg (Set.notMem_empty y)
        · exact absurd hd hyz.1
      exact (h.edges y ht z hyz.2).resolve_right (Set.notMem_empty z)

end Tricolour

end Xgc.Lib
