import Mathlib.Data.List.Nodup
import Mathlib.Algebra.BigOperators.Group.List.Basic
import Mathlib.Tactic.Ring

/-! Lists of records told apart by a key, used as finite maps.

    Lookup finds the first record with a key, `update` rewrites it in place, and `removeKey` removes
    it the way an unordered array does: the last record takes its place. When the keys are distinct
    these act on the map that the list stands for, whatever the order of the records. -/

namespace Xgc.Lib

variable {κ α : Type*} [DecidableEq κ] (key : α → κ)

/-- The first record with key `k`. -/
def lookup (k : κ) (l : List α) : Option α := l.find? fun x => key x = k

/-- Rewrite the first record with key `k`. -/
def update (k : κ) (f : α → α) : List α → List α
  | [] => []
  | x :: xs => if key x = k then f x :: xs else x :: update k f xs

/-- Remove position `i` of an unordered array: the last element takes its place. -/
def swapRemove (i : Nat) (l : List α) : List α :=
  match l.getLast? with
  | some x => (l.set i x).dropLast
  | none => l

/-- Remove the first record with key `k` from an unordered array. -/
def removeKey (k : κ) (l : List α) : List α :=
  if l.findIdx (fun x => key x = k) < l.length then
    swapRemove (l.findIdx fun x => key x = k) l
  else l

variable {key}

theorem lookup_eq_none {k : κ} {l : List α} : lookup key k l = none ↔ ∀ x ∈ l, key x ≠ k := by
  simp [lookup]

theorem mem_of_lookup {k : κ} {l : List α} {x : α} (h : lookup key k l = some x) :
    x ∈ l ∧ key x = k :=
  ⟨List.mem_of_find?_eq_some h, by simpa using List.find?_some h⟩

/-- With distinct keys a record is found by its key. -/
theorem lookup_eq_some : ∀ {k : κ} {l : List α} {x : α}, (l.map key).Nodup →
    (lookup key k l = some x ↔ x ∈ l ∧ key x = k)
  | k, [], x, _ => by simp [lookup]
  | k, y :: ys, x, h => by
      rw [List.map_cons, List.nodup_cons] at h
      by_cases hy : key y = k
      · have hys : ∀ z ∈ ys, key z ≠ k := fun z hz hk =>
          h.1 (hy ▸ hk ▸ List.mem_map_of_mem hz)
        constructor
        · intro hf
          have : y = x := by simpa [lookup, hy] using hf
          exact this ▸ ⟨List.mem_cons_self .., hy⟩
        · rintro ⟨hx, hk⟩
          rcases List.mem_cons.mp hx with rfl | hx
          · simp [lookup, hy]
          · exact absurd hk (hys x hx)
      · have ih := lookup_eq_some (k := k) (x := x) h.2
        have hstep : lookup key k (y :: ys) = lookup key k ys := by simp [lookup, hy]
        rw [hstep, ih, List.mem_cons]
        constructor
        · exact fun hx => ⟨.inr hx.1, hx.2⟩
        · rintro ⟨rfl | hx, hk⟩
          · exact absurd hk hy
          · exact ⟨hx, hk⟩

theorem exists_lookup {k : κ} {l : List α} (h : k ∈ l.map key) : ∃ x, lookup key k l = some x := by
  obtain ⟨x, hx, rfl⟩ := List.mem_map.mp h
  cases hl : lookup key (key x) l with
  | some y => exact ⟨y, rfl⟩
  | none => exact absurd rfl (lookup_eq_none.mp hl x hx)

/-- Erasing a key leaves the records with other keys. -/
theorem mem_eraseP_key {k : κ} {x : α} : ∀ {l : List α}, (l.map key).Nodup →
    (x ∈ l.eraseP (fun y => key y = k) ↔ x ∈ l ∧ key x ≠ k)
  | [], _ => by simp
  | y :: ys, h => by
      rw [List.map_cons, List.nodup_cons] at h
      by_cases hy : key y = k
      · rw [List.eraseP_cons_of_pos (by simpa using hy), List.mem_cons]
        constructor
        · exact fun hx => ⟨.inr hx, fun hk => h.1 (hy ▸ hk ▸ List.mem_map_of_mem hx)⟩
        · rintro ⟨rfl | hx, hk⟩
          · exact absurd hy hk
          · exact hx
      · rw [List.eraseP_cons_of_neg (by simpa using hy), List.mem_cons, List.mem_cons,
          mem_eraseP_key h.2]
        constructor
        · rintro (rfl | hx)
          · exact ⟨.inl rfl, hy⟩
          · exact ⟨.inr hx.1, hx.2⟩
        · rintro ⟨rfl | hx, hk⟩
          · exact .inl rfl
          · exact .inr ⟨hx, hk⟩

theorem map_update {β : Type*} {g : α → β} {k : κ} {f : α → α} (hf : ∀ x, g (f x) = g x) :
    ∀ l : List α, (update key k f l).map g = l.map g
  | [] => rfl
  | x :: xs => by
      by_cases hx : key x = k <;> simp [update, hx, hf, map_update hf xs]

@[simp] theorem length_update {k : κ} {f : α → α} : ∀ l : List α,
    (update key k f l).length = l.length
  | [] => rfl
  | x :: xs => by by_cases hx : key x = k <;> simp [update, hx, length_update xs]

/-- An update leaves the records of other keys. -/
theorem lookup_update_of_ne {k k' : κ} {f : α → α} (hk : k' ≠ k) (hf : ∀ x, key (f x) = key x) :
    ∀ l : List α, lookup key k' (update key k f l) = lookup key k' l
  | [] => rfl
  | x :: xs => by
      by_cases hx : key x = k
      · have hne : ¬ k = k' := fun he => hk he.symm
        simp [update, lookup, hx, hf, hne]
      · by_cases hx' : key x = k'
        · simp [update, lookup, hx', hk]
        · have ih := lookup_update_of_ne hk hf xs
          simpa [update, lookup, hx, hx'] using ih

/-- An update changes the record of its key. -/
theorem lookup_update_self {k : κ} {f : α → α} (hf : ∀ x, key (f x) = key x) {x : α} :
    ∀ {l : List α}, lookup key k l = some x → lookup key k (update key k f l) = some (f x)
  | [], h => nomatch h
  | y :: ys, h => by
      by_cases hy : key y = k
      · obtain rfl : y = x := by simpa [lookup, hy] using h
        simp [update, lookup, hy, hf]
      · have ih := lookup_update_self hf (l := ys) (by simpa [lookup, hy] using h)
        simpa [update, lookup, hy] using ih

/-- The records of an updated list. -/
theorem mem_update {k : κ} {f : α → α} {y : α} : ∀ {l : List α}, (l.map key).Nodup →
    (y ∈ update key k f l ↔ (y ∈ l ∧ key y ≠ k) ∨ ∃ x ∈ l, key x = k ∧ y = f x)
  | [], _ => by simp [update]
  | x :: xs, h => by
      rw [List.map_cons, List.nodup_cons] at h
      by_cases hx : key x = k
      · have hxs : ∀ z ∈ xs, key z ≠ k := fun z hz hk =>
          h.1 (hx ▸ hk ▸ List.mem_map_of_mem hz)
        rw [update, if_pos hx]
        constructor
        · intro hy
          rcases List.mem_cons.mp hy with rfl | hy
          · exact .inr ⟨x, List.mem_cons_self .., hx, rfl⟩
          · exact .inl ⟨List.mem_cons_of_mem _ hy, hxs y hy⟩
        · rintro (⟨hy, hk⟩ | ⟨z, hz, hk, rfl⟩)
          · rcases List.mem_cons.mp hy with rfl | hy
            · exact absurd hx hk
            · exact List.mem_cons_of_mem _ hy
          · rcases List.mem_cons.mp hz with rfl | hz
            · exact List.mem_cons_self ..
            · exact absurd hk (hxs z hz)
      · rw [update, if_neg hx, List.mem_cons, mem_update h.2]
        constructor
        · rintro (rfl | ⟨hy, hk⟩ | ⟨z, hz, hk, rfl⟩)
          · exact .inl ⟨List.mem_cons_self .., hx⟩
          · exact .inl ⟨List.mem_cons_of_mem _ hy, hk⟩
          · exact .inr ⟨z, List.mem_cons_of_mem _ hz, hk, rfl⟩
        · rintro (⟨hy, hk⟩ | ⟨z, hz, hk, rfl⟩)
          · rcases List.mem_cons.mp hy with rfl | hy
            · exact .inl rfl
            · exact .inr (.inl ⟨hy, hk⟩)
          · rcases List.mem_cons.mp hz with rfl | hz
            · exact absurd hk hx
            · exact .inr (.inr ⟨z, hz, hk, rfl⟩)

/-- A sum over the records changes by what the updated record contributes. -/
theorem sum_update {k : κ} {f : α → α} (g : α → Nat) {x : α} : ∀ {l : List α},
    lookup key k l = some x → ((update key k f l).map g).sum + g x = (l.map g).sum + g (f x)
  | [], h => by simp [lookup] at h
  | y :: ys, h => by
      by_cases hy : key y = k
      · obtain rfl : y = x := by simpa [lookup, hy] using h
        simp only [update, hy, if_true, List.map_cons, List.sum_cons]
        ring
      · have hl : lookup key k ys = some x := by simpa [lookup, hy] using h
        have ih := sum_update g hl (f := f)
        simp only [update, hy, if_false, List.map_cons, List.sum_cons]
        omega

theorem swapRemove_perm {i : Nat} {l : List α} (hi : i < l.length) :
    (swapRemove i l).Perm (l.eraseIdx i) := by
  obtain ⟨init, x, rfl⟩ := (List.eq_nil_or_concat l).resolve_left (by rintro rfl; simp at hi)
  rw [List.concat_eq_append] at hi ⊢
  simp only [swapRemove, List.getLast?_append, List.getLast?_singleton, Option.some_or]
  by_cases hlt : i < init.length
  · rw [List.set_append_left _ _ hlt, List.dropLast_concat, List.eraseIdx_append_of_lt_length hlt]
    exact (List.set_perm_cons_eraseIdx hlt x).trans (List.perm_append_singleton _ _).symm
  · obtain rfl : i = init.length := by simp at hi; omega
    rw [List.set_append_right _ _ (le_refl _), Nat.sub_self, List.set_cons_zero,
      List.dropLast_concat, List.eraseIdx_append_of_length_le (le_refl _), Nat.sub_self]
    simp

/-- Removing a record that is there leaves the others. -/
theorem cons_removeKey_perm {k : κ} {l : List α} {x : α} (h : lookup key k l = some x) :
    (x :: removeKey key k l).Perm l := by
  have hidx : l.findIdx (fun x => key x = k) < l.length :=
    List.findIdx_lt_length_of_exists ⟨x, (mem_of_lookup h).1, by simpa using (mem_of_lookup h).2⟩
  have hx : l.get ⟨l.findIdx fun x => key x = k, hidx⟩ = x := by
    rw [lookup, List.find?_eq_getElem?_findIdx, List.getElem?_eq_getElem hidx] at h
    exact Option.some.inj h
  rw [removeKey, if_pos hidx]
  refine ((swapRemove_perm hidx).cons x).trans ?_
  rw [← hx]
  exact List.getElem_cons_eraseIdx_perm hidx

/-- The records that are left when one is removed. -/
theorem mem_removeKey {k : κ} {l : List α} {x y : α} (hn : (l.map key).Nodup)
    (h : lookup key k l = some x) : y ∈ removeKey key k l ↔ y ∈ l ∧ key y ≠ k := by
  obtain ⟨-, rfl⟩ := mem_of_lookup h
  have hperm := cons_removeKey_perm h
  have hnodup := (hperm.map key).nodup_iff.mpr hn
  rw [List.map_cons, List.nodup_cons] at hnodup
  rw [← hperm.mem_iff, List.mem_cons]
  constructor
  · exact fun hy => ⟨.inr hy, fun hk => hnodup.1 (List.mem_map.mpr ⟨y, hy, hk⟩)⟩
  · rintro ⟨rfl | hy, hk⟩
    · exact absurd rfl hk
    · exact hy

theorem nodup_map_removeKey {k : κ} {l : List α} {x : α} (hn : (l.map key).Nodup)
    (h : lookup key k l = some x) : ((removeKey key k l).map key).Nodup :=
  (List.nodup_cons.mp (((cons_removeKey_perm h).map key).nodup_iff.mpr hn)).2

/-- A sum over the records loses what the removed record contributes. -/
theorem sum_removeKey {k : κ} {l : List α} {x : α} (g : α → Nat) (h : lookup key k l = some x) :
    g x + ((removeKey key k l).map g).sum = (l.map g).sum := by
  rw [← ((cons_removeKey_perm h).map g).sum_eq, List.map_cons, List.sum_cons]

end Xgc.Lib
