import Cranelift.Entity.ListOps

/-!
# Editing entity lists in the middle

`insert`, `remove` and `swap_remove`: a write of the list's elements in its own block, before
(`insert`, after its `push`) or after (`remove`, `swap_remove`, before their `remove_last`) the
step that may move the list to another size class. Each is what the `Vec` operation of the same
name does to the elements: `List.insertIdx`, `List.eraseIdx`, and a `set` of the last element at
the index before the last is dropped.

## Main results

* `Cranelift.Entity.EntityList.insert_spec`, `remove_spec`, `swapRemove_spec`.
-/

namespace Cranelift.Entity

variable {T : Type} [EntityNew T] [ReservedValue T]

namespace EntityList

variable {pool : ListPool T} {frees : List Block} {l : EntityList T} {xs : List T}

/-- **`insert` puts the element in at `index`**: `push` appends it, then the elements from
`index` on move up by one, from the top down, and the element goes to `index`. -/
theorem insert_spec (hw : ListWf pool frees l xs) {index : ℕ} (hindex : index ≤ xs.length)
    (x : T) (hfit : pool.data.length + sclassSize (sclassForLength (xs.length + 1)) < 2 ^ 32) :
    ∃ l' pool' frees', l.insert index x pool = some (l', pool') ∧
      Moves pool frees l xs pool' frees' l' (xs.insertIdx index x) ∧
      pool'.data.length ≤ pool.data.length + sclassSize (sclassForLength (xs.length + 1)) := by
  obtain ⟨l₁, pool₁, frees₁, hpush, hmoves₁, hlen₁⟩ := push_spec hw x hfit
  have hne : xs ++ [x] ≠ [] := by simp
  have hlen : (xs ++ [x]).length = xs.length + 1 := by simp
  obtain ⟨hpos₁, hst₁⟩ := hmoves₁.wf.holds.stores hne
  have hslice := asMutSlice_of_stores hpos₁ hst₁
  rw [hlen] at hslice
  have hend := hmoves₁.wf.holds.end_le
  rw [hlen] at hend
  have hold : ∀ i < xs.length + 1, pool₁.data[l₁.index.toNat + i]? = (xs ++ [x])[i]? :=
    fun _ hi => hmoves₁.wf.holds.getElem?_elem (by rw [hlen]; exact hi)
  -- the tail moves up, then the element goes in
  obtain ⟨data₂, hshift, hlen₂, hget₂⟩ := Slice.shiftUp_spec
    (show 1 ≤ l₁.index.toNat + index + 1 by omega)
    (show l₁.index.toNat + (xs.length + 1) ≤ pool₁.data.length from hend)
  have hset : Slice.setAt data₂ (l₁.index.toNat + index) x =
      some (data₂.set (l₁.index.toNat + index) x) := Slice.setAt_of_lt (by omega)
  have hlen₃ : (data₂.set (l₁.index.toNat + index) x).length = pool₁.data.length := by
    rw [List.length_set, hlen₂]
  refine ⟨l₁, { pool₁ with data := data₂.set (l₁.index.toNat + index) x }, frees₁, ?_, ?_, by
    show (data₂.set _ x).length ≤ _
    rw [hlen₃]
    exact hlen₁⟩
  · simp [insert, hpush, hslice, Nat.lt_succ_of_le hindex, hshift, hset]
  refine hmoves₁.trans (Moves.of_elems hmoves₁.wf hne hlen₃ ?_ ?_ ?_)
  · rw [List.length_insertIdx_of_le_length hindex, hlen]
  · intro j hj
    rw [hlen] at hj
    rw [List.getElem?_set_ne (by omega), hget₂, if_neg fun h => hj ⟨by omega, h.2⟩]
  · intro k hk
    rw [hlen] at hk
    rw [List.getElem?_set, List.getElem?_insertIdx]
    by_cases hki : k = index
    · -- the element itself
      subst hki
      rw [if_pos rfl, if_pos (by omega), if_neg (Nat.lt_irrefl k), if_pos rfl, if_pos hindex]
    · rw [if_neg (by omega), hget₂]
      by_cases hlt : k < index
      · -- before `index`, in place
        rw [if_neg (by omega), hold _ (by omega), if_pos hlt, List.getElem?_append_left (by omega)]
      · -- after `index`, moved up by one
        rw [if_pos ⟨by omega, by omega⟩, if_neg hlt, if_neg hki,
          show l₁.index.toNat + k - 1 = l₁.index.toNat + (k - 1) by omega, hold _ (by omega),
          List.getElem?_append_left (by omega)]

/-- **`remove` drops the element at `index`**: the elements after it move down by one, from the
bottom up, which leaves the last slot holding the last element, and `remove_last` drops it. -/
theorem remove_spec (hw : ListWf pool frees l xs) {index : ℕ} (hindex : index < xs.length)
    (hfit : pool.data.length + sclassSize (sclassForLength (xs.length - 1)) < 2 ^ 32) :
    ∃ l' pool' frees', l.remove index pool = some (l', pool') ∧
      Moves pool frees l xs pool' frees' l' (xs.eraseIdx index) ∧
      pool'.data.length ≤ pool.data.length + sclassSize (sclassForLength (xs.length - 1)) := by
  have hxs : xs ≠ [] := List.ne_nil_of_length_pos (by omega)
  obtain ⟨hpos, hst⟩ := hw.holds.stores hxs
  have hslice := asMutSlice_of_stores hpos hst
  have hend := hw.holds.end_le
  have hold : ∀ i < xs.length, pool.data[l.index.toNat + i]? = xs[i]? := fun _ hi =>
    hw.holds.getElem?_elem hi
  obtain ⟨last, hlast⟩ : ∃ last, xs[xs.length - 1]? = some last :=
    ⟨_, List.getElem?_eq_getElem (by omega)⟩
  obtain ⟨data₁, hshift, hlen₁, hget₁⟩ : ∃ data₁, Slice.shiftDown pool.data
      (l.index.toNat + index) (l.index.toNat + (xs.length - 1)) 1 = some data₁ ∧
      data₁.length = pool.data.length ∧ ∀ j, data₁[j]? =
        if l.index.toNat + index ≤ j ∧ j < l.index.toNat + (xs.length - 1) then pool.data[j + 1]?
        else pool.data[j]? :=
    Slice.shiftDown_spec (by omega)
  -- after the move the block holds the list without the element, then the last element again
  have hys : (xs.eraseIdx index ++ [last]).length = xs.length := by
    rw [List.length_append, List.length_eraseIdx, if_pos hindex, List.length_singleton]
    omega
  have hmoves₁ : Moves pool frees l xs { pool with data := data₁ } frees l
      (xs.eraseIdx index ++ [last]) := by
    refine Moves.of_elems hw hxs hlen₁ hys (fun j hj => ?_) (fun k hk => ?_)
    · rw [hget₁, if_neg fun h => hj ⟨by omega, by omega⟩]
    · rw [hget₁, List.getElem?_append, List.length_eraseIdx, if_pos hindex,
        List.getElem?_eraseIdx]
      by_cases hlt : k < index
      · rw [if_neg (by omega), if_pos (by omega), if_pos hlt, hold _ (by omega)]
      · by_cases hk' : k < xs.length - 1
        · rw [if_pos ⟨by omega, by omega⟩, if_pos hk', if_neg hlt, Nat.add_assoc,
            hold _ (by omega)]
        · rw [if_neg (by omega), if_neg hk', show k = xs.length - 1 by omega, Nat.sub_self,
            hold _ (by omega), hlast]
          rfl
  obtain ⟨l', pool', frees', hrl, hmoves₂, hlen₂⟩ := removeLast_spec hmoves₁.wf (by simp)
    (by rw [hys]; exact hlen₁ ▸ hfit)
  rw [hys, List.dropLast_concat] at *
  refine ⟨l', pool', frees', ?_, hmoves₁.trans hmoves₂, by rw [← hlen₁]; exact hlen₂⟩
  simp [remove, hslice, hindex, hshift, hrl]

/-- **`swap_remove` drops the element at `index`, putting the last element there**: a swap of
the two, unless `index` is the last, then `remove_last`. -/
theorem swapRemove_spec (hw : ListWf pool frees l xs) {index : ℕ} (hindex : index < xs.length)
    {last : T} (hlast : xs.getLast? = some last)
    (hfit : pool.data.length + sclassSize (sclassForLength (xs.length - 1)) < 2 ^ 32) :
    ∃ l' pool' frees', l.swapRemove index pool = some (l', pool') ∧
      Moves pool frees l xs pool' frees' l' (xs.set index last).dropLast ∧
      pool'.data.length ≤ pool.data.length + sclassSize (sclassForLength (xs.length - 1)) := by
  have hxs : xs ≠ [] := List.ne_nil_of_length_pos (by omega)
  obtain ⟨hpos, hst⟩ := hw.holds.stores hxs
  have hslice := asMutSlice_of_stores hpos hst
  have hend := hw.holds.end_le
  have hold : ∀ i < xs.length, pool.data[l.index.toNat + i]? = xs[i]? := fun _ hi =>
    hw.holds.getElem?_elem hi
  rw [List.getLast?_eq_getElem?] at hlast
  by_cases hidx : index = xs.length - 1
  · -- the last element: no swap
    obtain ⟨l', pool', frees', hrl, hmoves, hlen⟩ := removeLast_spec hw hxs hfit
    rw [hidx, Slice.dropLast_set_length_sub_one]
    refine ⟨l', pool', frees', ?_, hmoves, hlen⟩
    simp [swapRemove, hslice, hrl, show xs.length - 1 < xs.length by omega]
  · obtain ⟨a, ha⟩ : ∃ a, xs[index]? = some a := ⟨_, List.getElem?_eq_getElem hindex⟩
    have hreada : pool.data[l.index.toNat + index]? = some a := by rw [hold _ hindex, ha]
    have hreadb : pool.data[l.index.toNat + (xs.length - 1)]? = some last := by
      rw [hold _ (by omega), hlast]
    have hset₁ : Slice.setAt pool.data (l.index.toNat + index) last =
        some (pool.data.set (l.index.toNat + index) last) := Slice.setAt_of_lt (by omega)
    obtain ⟨data₂, hdata₂⟩ : ∃ data₂, data₂ = (pool.data.set (l.index.toNat + index) last).set
        (l.index.toNat + (xs.length - 1)) a := ⟨_, rfl⟩
    have hset₂ : Slice.setAt (pool.data.set (l.index.toNat + index) last)
        (l.index.toNat + (xs.length - 1)) a = some data₂ := by
      rw [hdata₂]
      exact Slice.setAt_of_lt (by rw [List.length_set]; omega)
    have hlen₂ : data₂.length = pool.data.length := by rw [hdata₂, List.length_set, List.length_set]
    -- the swap, in the block
    have hys : ((xs.set index last).set (xs.length - 1) a).length = xs.length := by simp
    have hmoves₁ : Moves pool frees l xs { pool with data := data₂ } frees l
        ((xs.set index last).set (xs.length - 1) a) := by
      refine Moves.of_elems hw hxs hlen₂ hys (fun j hj => ?_) (fun k hk => ?_)
      · rw [hdata₂, List.getElem?_set_ne (by omega), List.getElem?_set_ne (by omega)]
      · rw [hdata₂]
        by_cases hkl : k = xs.length - 1
        · -- the last slot now holds the element from `index`
          rw [hkl, List.getElem?_set_self (show l.index.toNat + (xs.length - 1) <
              (pool.data.set (l.index.toNat + index) last).length by rw [List.length_set]; omega),
            List.getElem?_set_self (show xs.length - 1 < (xs.set index last).length by
              rw [List.length_set]; omega)]
        · rw [List.getElem?_set_ne (show l.index.toNat + (xs.length - 1) ≠ l.index.toNat + k by
              omega), List.getElem?_set_ne (show xs.length - 1 ≠ k by omega)]
          by_cases hki : k = index
          · -- the slot at `index` now holds the last element
            rw [hki, List.getElem?_set_self (show l.index.toNat + index < pool.data.length by
                omega), List.getElem?_set_self hindex]
          · rw [List.getElem?_set_ne (show l.index.toNat + index ≠ l.index.toNat + k by omega),
              List.getElem?_set_ne (show index ≠ k by omega), hold _ hk]
    obtain ⟨l', pool', frees', hrl, hmoves₂, hlen₃⟩ := removeLast_spec hmoves₁.wf
      (List.ne_nil_of_length_pos (by omega)) (by rw [hys]; exact hlen₂ ▸ hfit)
    have hlast' : (xs.set index last).length - 1 = xs.length - 1 := by rw [List.length_set]
    have hdrop : ((xs.set index last).set (xs.length - 1) a).dropLast =
        (xs.set index last).dropLast := by
      rw [← hlast', Slice.dropLast_set_length_sub_one]
    rw [hys] at hrl hlen₃
    rw [hdrop] at hmoves₂
    refine ⟨l', pool', frees', ?_, hmoves₁.trans hmoves₂, by rw [← hlen₂]; exact hlen₃⟩
    simp [swapRemove, hslice, hindex, hidx, hreada, hreadb, hset₁, hset₂, hrl]

end EntityList

end Cranelift.Entity
