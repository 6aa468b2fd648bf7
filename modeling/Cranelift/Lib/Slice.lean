import Mathlib.Data.List.Basic

/-!
# Slices of a vector, as lists

The writes a program makes into a `Vec` through indices and sub-slices, on a list: an indexed
assignment, a copy into a sub-slice, `copy_within`, and the two loops that move a range of a
vector up or down by a distance, one element at a time. Each fails (`none`) where the program
would panic on an index out of bounds.

Each is described pointwise: the element at every index after the write, from the elements before
it. A proof about a data structure stored in one vector then says which indices an operation
writes, and keeps what it knows about the other indices.

## Main definitions

* `Slice.setAt`, `Slice.read`, `Slice.write`, `Slice.copyWithin`.
* `Slice.shiftUp`, `Slice.shiftDown` — the loops `for i in (lo..hi).rev() { v[i] = v[i - d] }`
  and `for i in lo..hi { v[i] = v[i + d] }`.

## Main results

* `Slice.getElem?_of_setAt`, `getElem?_of_write` — each write, pointwise.
* `Slice.shiftUp_spec`, `Slice.shiftDown_spec` — the loops move the range as a whole: going
  against the direction of the move, no element is overwritten before it is read.
* `Slice.read_congr` — a sub-slice depends only on the elements at its indices.
* `Slice.getElem?_splice` — a list with another put in at an index, pointwise.
-/

namespace Slice

variable {α : Type*}

/-- Indexed assignment `v[i] = x`, which panics when `i` is out of bounds. -/
def setAt (l : List α) (i : ℕ) (x : α) : Option (List α) :=
  if i < l.length then some (l.set i x) else none

/-- The sub-slice `&v[a..a + n]`, where it lies inside the vector. -/
def read (l : List α) (a n : ℕ) : List α := (l.drop a).take n

/-- `v[dest..dest + src.len()].copy_from_slice(src)`, which panics when the range is out of
bounds. -/
def write (l : List α) (dest : ℕ) (src : List α) : Option (List α) :=
  if dest + src.length ≤ l.length then some (l.take dest ++ src ++ l.drop (dest + src.length))
  else none

/-- `v.copy_within(src..src + n, dest)`: both ranges must lie inside the vector; they may
overlap. -/
def copyWithin (l : List α) (src n dest : ℕ) : Option (List α) :=
  if src + n ≤ l.length then write l dest (read l src n) else none

/-- `for i in (lo..hi).rev() { v[i] = v[i - d] }`. -/
def shiftUp (l : List α) (lo hi d : ℕ) : Option (List α) :=
  (List.range' lo (hi - lo)).reverse.foldlM (fun l i => do setAt l i (← l[i - d]?)) l

/-- `for i in lo..hi { v[i] = v[i + d] }`. -/
def shiftDown (l : List α) (lo hi d : ℕ) : Option (List α) :=
  (List.range' lo (hi - lo)).foldlM (fun l i => do setAt l i (← l[i + d]?)) l

/-! ### Indexed assignment -/

section SetAt

variable {l l' : List α} {i : ℕ} {x : α}

lemma setAt_of_lt (h : i < l.length) : setAt l i x = some (l.set i x) := if_pos h

lemma lt_of_setAt (h : setAt l i x = some l') : i < l.length := by
  unfold setAt at h
  split at h
  · assumption
  · contradiction

lemma length_of_setAt (h : setAt l i x = some l') : l'.length = l.length := by
  rw [setAt_of_lt (lt_of_setAt h), Option.some.injEq] at h
  rw [← h, List.length_set]

lemma getElem?_of_setAt (h : setAt l i x = some l') (j : ℕ) :
    l'[j]? = if i = j then some x else l[j]? := by
  have hi := lt_of_setAt h
  rw [setAt_of_lt hi, Option.some.injEq] at h
  rw [← h, List.getElem?_set, if_pos hi]

lemma getElem?_of_setAt_of_ne (h : setAt l i x = some l') {j : ℕ} (hj : i ≠ j) :
    l'[j]? = l[j]? := by
  rw [getElem?_of_setAt h, if_neg hj]

end SetAt

/-! ### Sub-slices -/

section Read

variable {l l' : List α} {a n : ℕ}

lemma length_read (h : a + n ≤ l.length) : (read l a n).length = n := by
  rw [read, List.length_take, List.length_drop]
  omega

lemma getElem?_read (k : ℕ) : (read l a n)[k]? = if k < n then l[a + k]? else none := by
  rw [read, List.getElem?_take, List.getElem?_drop]

/-- A sub-slice depends only on the elements at its indices. -/
lemma read_congr (h : ∀ k < n, l'[a + k]? = l[a + k]?) : read l' a n = read l a n := by
  apply List.ext_getElem?
  intro k
  rw [getElem?_read, getElem?_read]
  split
  · rename_i hk
    exact h k hk
  · rfl

/-- A sub-slice of the right length is the list of the elements at its indices. -/
lemma read_eq_of_getElem? {xs : List α} (h : ∀ k < xs.length, l[a + k]? = xs[k]?) :
    read l a xs.length = xs := by
  apply List.ext_getElem?
  intro k
  rw [getElem?_read]
  split
  · rename_i hk
    exact h k hk
  · rename_i hk
    rw [List.getElem?_eq_none (Nat.le_of_not_lt hk)]

/-- Two equal sub-slices agree pointwise. -/
lemma getElem?_eq_of_read_eq {b : ℕ} (h : read l' b n = read l a n) {k : ℕ} (hk : k < n) :
    l'[b + k]? = l[a + k]? := by
  have h' := congrArg (·[k]?) h
  simpa only [getElem?_read, if_pos hk] using h'

lemma getElem?_of_read_eq {xs : List α} (h : read l a n = xs) {k : ℕ} (hk : k < n) :
    l[a + k]? = xs[k]? := by
  rw [← h, getElem?_read, if_pos hk]

/-- A sub-slice of a sub-slice. -/
lemma read_add {m i : ℕ} (h : i + n ≤ m) : read l (a + i) n = ((read l a m).drop i).take n := by
  apply List.ext_getElem?
  intro k
  rw [getElem?_read, List.getElem?_take, List.getElem?_drop, getElem?_read]
  by_cases hk : k < n
  · rw [if_pos hk, if_pos hk, if_pos (by omega), Nat.add_assoc]
  · rw [if_neg hk, if_neg hk]

end Read

/-! ### Splices and the last element -/

/-- A write to the last element does not show once the last element is dropped. -/
lemma dropLast_set_length_sub_one (xs : List α) (x : α) :
    (xs.set (xs.length - 1) x).dropLast = xs.dropLast := by
  apply List.ext_getElem?
  intro k
  rw [List.getElem?_dropLast, List.getElem?_dropLast, List.length_set]
  by_cases hk : k < xs.length - 1
  · rw [if_pos hk, if_pos hk, List.getElem?_set_ne (by omega)]
  · rw [if_neg hk, if_neg hk]

/-- `xs` with `m` put in at `i`, pointwise. -/
lemma getElem?_splice {xs m : List α} {i : ℕ} (hi : i ≤ xs.length) (k : ℕ) :
    (xs.take i ++ m ++ xs.drop i)[k]? =
      if k < i then xs[k]? else if k < i + m.length then m[k - i]? else xs[k - m.length]? := by
  have htake : (xs.take i).length = i := List.length_take_of_le hi
  rw [List.getElem?_append, List.length_append, htake, List.getElem?_append, htake]
  by_cases hk : k < i
  · rw [if_pos (by omega), if_pos hk, if_pos hk, List.getElem?_take, if_pos hk]
  · rw [if_neg hk, if_neg hk]
    by_cases hk' : k < i + m.length
    · rw [if_pos hk', if_pos hk']
    · rw [if_neg hk', if_neg hk', List.getElem?_drop,
        show i + (k - (i + m.length)) = k - m.length by omega]

/-! ### Copies into a sub-slice -/

section Write

variable {l l' src : List α} {dest : ℕ}

lemma write_of_le (h : dest + src.length ≤ l.length) :
    write l dest src = some (l.take dest ++ src ++ l.drop (dest + src.length)) := if_pos h

lemma le_of_write (h : write l dest src = some l') : dest + src.length ≤ l.length := by
  unfold write at h
  split at h
  · assumption
  · contradiction

lemma length_of_write (h : write l dest src = some l') : l'.length = l.length := by
  have hle := le_of_write h
  rw [write_of_le hle, Option.some.injEq] at h
  rw [← h, List.length_append, List.length_append, List.length_take, List.length_drop]
  omega

lemma getElem?_of_write (h : write l dest src = some l') (j : ℕ) :
    l'[j]? = if dest ≤ j ∧ j < dest + src.length then src[j - dest]? else l[j]? := by
  have hle := le_of_write h
  have htake : (l.take dest).length = dest := by
    rw [List.length_take]
    omega
  rw [write_of_le hle, Option.some.injEq] at h
  subst h
  rw [List.append_assoc, List.getElem?_append, htake]
  by_cases hj : j < dest
  · rw [if_pos hj, if_neg (by omega), List.getElem?_take, if_pos hj]
  · rw [if_neg hj, List.getElem?_append]
    by_cases hj' : j - dest < src.length
    · rw [if_pos hj', if_pos ⟨Nat.le_of_not_lt hj, by omega⟩]
    · rw [if_neg hj', if_neg (by omega), List.getElem?_drop]
      congr 1
      omega

/-- What was written reads back. -/
lemma read_of_write (h : write l dest src = some l') : read l' dest src.length = src := by
  apply read_eq_of_getElem?
  intro k hk
  rw [getElem?_of_write h, if_pos ⟨Nat.le_add_right dest k, by omega⟩, Nat.add_sub_cancel_left]

end Write

/-! ### Moving a range up or down -/

section Shift

variable {l l' : List α} {lo hi d : ℕ}

/-- The loop from `hi` down: its first step writes index `hi`. -/
lemma shiftUp_succ (h : lo ≤ hi) :
    shiftUp l lo (hi + 1) d = (do setAt l hi (← l[hi - d]?)) >>= fun l => shiftUp l lo hi d := by
  have hrange : List.range' lo (hi + 1 - lo) = List.range' lo (hi - lo) ++ [hi] := by
    rw [show hi + 1 - lo = (hi - lo) + 1 by omega, List.range'_1_concat]
    congr 2
    omega
  rw [shiftUp, hrange, List.reverse_append, List.reverse_singleton, List.singleton_append,
    List.foldlM_cons]
  rfl

/-- **The loop moving a range up.** Going from the top down, each element is read before the
loop writes its index: the range `[lo, hi)` ends up holding what `[lo - d, hi - d)` held. -/
lemma shiftUp_spec (hd : d ≤ lo) (hhi : hi ≤ l.length) :
    ∃ l', shiftUp l lo hi d = some l' ∧ l'.length = l.length ∧
      ∀ j, l'[j]? = if lo ≤ j ∧ j < hi then l[j - d]? else l[j]? := by
  induction hi generalizing l with
  | zero => exact ⟨l, by simp [shiftUp], rfl, fun j => by rw [if_neg (by omega)]⟩
  | succ hi ih =>
    by_cases hlo : lo ≤ hi
    · -- one step at `hi`, then the loop below it on the written list
      obtain ⟨x, hx⟩ : ∃ x, l[hi - d]? = some x := ⟨_, List.getElem?_eq_getElem (by omega)⟩
      have hset : setAt l hi x = some (l.set hi x) := setAt_of_lt (by omega)
      have hlen₁ : (l.set hi x).length = l.length := List.length_set ..
      obtain ⟨l', hrun, hlen, hget⟩ := @ih (l.set hi x) (by rw [List.length_set]; omega)
      refine ⟨l', ?_, hlen.trans hlen₁, fun j => ?_⟩
      · simp only [shiftUp_succ hlo, hx, hset, hrun, Option.bind_eq_bind, Option.bind_some]
      · rw [hget j]
        have hset_j := getElem?_of_setAt hset
        by_cases hj : lo ≤ j ∧ j < hi
        · rw [if_pos hj, if_pos ⟨hj.1, by omega⟩, hset_j, if_neg (by omega)]
        · rw [if_neg hj, hset_j]
          by_cases hji : hi = j
          · rw [if_pos hji, if_pos ⟨by omega, by omega⟩, ← hji, hx]
          · rw [if_neg hji, if_neg (by omega)]
    · -- an empty loop
      have hempty : hi + 1 - lo = 0 := by omega
      refine ⟨l, by simp [shiftUp, hempty], rfl, fun j => ?_⟩
      rw [if_neg (by omega)]

/-- The loop from `lo` up: its first step writes index `lo`. -/
lemma shiftDown_of_lt (h : lo < hi) :
    shiftDown l lo hi d = (do setAt l lo (← l[lo + d]?)) >>= fun l => shiftDown l (lo + 1) hi d := by
  rw [shiftDown, show hi - lo = (hi - (lo + 1)) + 1 by omega, List.range'_succ, List.foldlM_cons]
  rfl

/-- **The loop moving a range down.** Going from the bottom up, each element is read before the
loop writes its index: the range `[lo, hi)` ends up holding what `[lo + d, hi + d)` held. -/
lemma shiftDown_spec (hhi : hi + d ≤ l.length) :
    ∃ l', shiftDown l lo hi d = some l' ∧ l'.length = l.length ∧
      ∀ j, l'[j]? = if lo ≤ j ∧ j < hi then l[j + d]? else l[j]? := by
  -- induction on the number of steps left, the loop's start moving up
  obtain ⟨n, hn⟩ : ∃ n, n = hi - lo := ⟨_, rfl⟩
  induction n generalizing l lo with
  | zero =>
    refine ⟨l, by simp [shiftDown, ← hn], rfl, fun j => ?_⟩
    rw [if_neg (by omega)]
  | succ n ih =>
    obtain ⟨x, hx⟩ : ∃ x, l[lo + d]? = some x := ⟨_, List.getElem?_eq_getElem (by omega)⟩
    have hset : setAt l lo x = some (l.set lo x) := setAt_of_lt (by omega)
    have hlen₁ : (l.set lo x).length = l.length := List.length_set ..
    obtain ⟨l', hrun, hlen, hget⟩ :=
      @ih (l.set lo x) (lo + 1) (by rw [List.length_set]; omega) (by omega)
    refine ⟨l', ?_, hlen.trans hlen₁, fun j => ?_⟩
    · simp only [shiftDown_of_lt (show lo < hi by omega), hx, hset, hrun, Option.bind_eq_bind,
        Option.bind_some]
    · rw [hget j]
      have hset_j := getElem?_of_setAt hset
      by_cases hj : lo + 1 ≤ j ∧ j < hi
      · rw [if_pos hj, if_pos ⟨by omega, hj.2⟩, hset_j, if_neg (by omega)]
      · rw [if_neg hj, hset_j]
        by_cases hji : lo = j
        · rw [if_pos hji, if_pos ⟨by omega, by omega⟩, ← hji, hx]
        · rw [if_neg hji, if_neg (by omega)]

end Shift

end Slice
