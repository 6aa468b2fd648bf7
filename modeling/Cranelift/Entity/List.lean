import Mathlib.Algebra.Group.Nat.Defs
import Mathlib.Data.Nat.Size
import Cranelift.Lib.Slice
import Cranelift.Entity.Sparse

/-!
# Entity lists in a list pool

A model of `cranelift/entity/src/list.rs`. A `ListPool<T>` keeps the elements of many small lists
in one vector `data`. A non-empty list owns a block of the vector whose size is a power of two,
`sclass_size(sclass)` for its size class `sclass`: the block holds the list's length, then its
elements, then unused slots. An `EntityList<T>` is only the `u32` index of its first element in
`data`; the empty list is the index `0` and owns no block. Freed blocks go onto one free list per
size class, threaded through the vector itself: a free block holds `0` where a length would be,
and then the link to the next free block of its class, offset by one so that `0` ends the list.

Every panic of the source, and every failed `debug_assert!`, is a failure (`none`) here; so is an
index out of bounds. The loops that move elements inside the vector are the loops of
`Cranelift.Lib.Slice`. The pool's elements are entities: `EntityRef::new` stores lengths and links
in the vector, and `EntityRef::index` reads them back.

`copy_from` refuses to copy between two lists with the same index (`assert_ne!`); all empty lists
have the index `0`, so it also refuses to copy from one empty list into another.

## Main definitions

* `Cranelift.Entity.ListPool` with `alloc`, `freeBlock` (`free`) and `realloc`.
* `Cranelift.Entity.EntityList` with `fromSlice`, `asSlice`, `push`, `extend`, `insert`,
  `remove`, `swapRemove`, `truncate`, `growAt`, `copyFrom`, `deepClone` and `clear`.

## Main results

* `Cranelift.Entity.sclassForLength_eq` — `sclass_for_length(len)` is the bit length of
  `len / 4`, so that a block of that class holds the length and `len` elements
  (`lt_sclassSize`), and the class moves up by one at the lengths `is_sclass_min_length` tests
  (`sclassForLength_succ`).
* `Cranelift.Entity.EntityList.copyFrom_new_new` — `copy_from` between two empty lists panics.
-/

namespace Cranelift.Entity

/-- `EntityRef::new`: the entity with an index. An entity is a `u32` index, so `new` inverts
`index` below `2 ^ 32`. -/
class EntityNew (T : Type) extends EntityRef T where
  new : ℕ → T
  index_new : ∀ n, n < 2 ^ 32 → index (new n) = n

/-- `ReservedValue::reserved_value`: the value a fresh block is filled with. -/
class ReservedValue (T : Type) where
  reservedValue : T

/-- `entity_impl!`: `new` truncates to a `u32` (the `debug_assert!` below `u32::MAX` is not
modelled), and the reserved value is `u32::MAX`. -/
instance : EntityNew UInt32 where
  new := UInt32.ofNat
  index_new n h := by
    show (UInt32.ofNat n).toNat = n
    rw [UInt32.toNat_ofNat']
    exact Nat.mod_eq_of_lt h

instance : ReservedValue UInt32 := ⟨UInt32.ofNat (2 ^ 32 - 1)⟩

/-- `ListPool<T>`: the vector holding the blocks of all lists, and the heads of the free lists,
one for each size class. -/
structure ListPool (T : Type) where
  data : List T
  free : List ℕ

/-- `EntityList<T>`: the index in the pool's data of the list's first element, after its length;
`0` for the empty list, which has no block. -/
structure EntityList (T : Type) where
  index : UInt32
deriving DecidableEq

/-! ### Size classes -/

/-- `sclass_size`: a block of size class `sclass` has `4 << sclass` slots, the length slot
included. -/
def sclassSize (sclass : ℕ) : ℕ := 4 <<< sclass

/-- `sclass_for_length`. A size class is a `u8`; the subtraction does not wrap, since `len | 3`
has at most 30 leading zeros. -/
def sclassForLength (len : ℕ) : ℕ := 30 - (BitVec.ofNat 32 len ||| (3 : BitVec 32)).clz.toNat

/-- `is_sclass_min_length`: whether a list of length `len` needs a larger block than one of
length `len - 1`. -/
def isSclassMinLength (len : ℕ) : Bool := 3 < len && decide len.isPowerOfTwo

section SizeClasses

lemma sclassSize_eq (sclass : ℕ) : sclassSize sclass = 4 * 2 ^ sclass := Nat.shiftLeft_eq 4 sclass

/-- A power of two above `3` is a multiple of `4`. -/
lemma mod_four_eq_zero_of_isPowerOfTwo {n : ℕ} (h : 3 < n) (hp : n.isPowerOfTwo) : n % 4 = 0 := by
  obtain ⟨k, rfl⟩ := hp
  match k, h with
  | k + 2, _ =>
    rw [pow_add, Nat.mul_comm]
    exact Nat.mul_mod_right _ _

lemma isPowerOfTwo_four_mul_iff (q : ℕ) : (4 * q).isPowerOfTwo ↔ q.isPowerOfTwo := by
  constructor
  · rintro ⟨k, hk⟩
    match k, hk with
    | 0, hk => omega
    | 1, hk => omega
    | k + 2, hk =>
      refine ⟨k, ?_⟩
      rw [pow_add] at hk
      omega
  · rintro ⟨j, rfl⟩
    exact ⟨j + 2, by rw [pow_add, Nat.mul_comm]; rfl⟩

/-- The bit length of `m + 1` is one more than that of `m` exactly when `m + 1` is a power of
two. -/
lemma size_succ (m : ℕ) : (m + 1).size = if (m + 1).isPowerOfTwo then m.size + 1 else m.size := by
  have hlt : m < 2 ^ m.size := Nat.lt_size_self m
  have hmono : m.size ≤ (m + 1).size := Nat.size_le_size (Nat.le_succ m)
  split
  · rename_i hp
    obtain ⟨j, hj⟩ := hp
    rw [hj, Nat.size_pow]
    -- `m = 2 ^ j - 1` has `j` bits
    have hm : m.size = j := by
      apply Nat.le_antisymm
      · exact Nat.size_le.mpr (by omega)
      · rcases Nat.eq_zero_or_pos j with rfl | hj0
        · exact Nat.zero_le _
        · have : 2 ^ (j - 1) ≤ m := by
            have h2 : 2 ^ j = 2 * 2 ^ (j - 1) := by
              rw [← pow_succ', Nat.sub_add_cancel hj0]
            omega
          have := Nat.lt_size.mpr this
          omega
    rw [hm]
  · rename_i hp
    apply Nat.le_antisymm _ hmono
    apply Nat.size_le.mpr
    -- `m + 1 ≤ 2 ^ m.size`, and it is not that power of two
    have hne : m + 1 ≠ 2 ^ m.size := fun h => hp ⟨_, h⟩
    omega

/-- **`sclass_for_length` counts the bits of `len / 4`**: `0` up to `3`, then one more at each
power of two. The proof reads the size class off the bounds that the leading zeros of
`len | 3` put on it. -/
lemma sclassForLength_eq {len : ℕ} (h : len < 2 ^ 32) : sclassForLength len = (len / 4).size := by
  set x : BitVec 32 := BitVec.ofNat 32 len ||| (3 : BitVec 32) with hx
  have hxn : x.toNat = len ||| 3 := by
    rw [hx, BitVec.toNat_or, BitVec.toNat_ofNat, Nat.mod_eq_of_lt h]
    rfl
  have hdiv : x.toNat / 4 = len / 4 := by
    rw [hxn, show (4 : ℕ) = 2 ^ 2 by rfl, ← Nat.shiftRight_eq_div_pow,
      ← Nat.shiftRight_eq_div_pow, Nat.shiftRight_or_distrib,
      show (3 : ℕ) >>> 2 = 0 by rfl, Nat.or_zero]
  have hge : 3 ≤ x.toNat := hxn ▸ Nat.right_le_or
  have hne : x ≠ 0#32 := by
    intro h0
    rw [h0, BitVec.toNat_zero] at hge
    omega
  set c := x.clz.toNat with hc
  have hlo : 2 ^ (32 - 1 - c) ≤ x.toNat := BitVec.two_pow_sub_clz_le_toNat_of_ne_zero (by decide) hne
  have hhi : x.toNat < 2 ^ (32 - c) := BitVec.toNat_lt_two_pow_sub_clz
  -- `x ≥ 3` has at most 30 leading zeros
  have hc30 : c ≤ 30 := by
    by_contra hgt
    have : 2 ^ (32 - c) ≤ 2 ^ 1 := Nat.pow_le_pow_right (by decide) (by omega)
    omega
  have hsclass : sclassForLength len = 30 - c := rfl
  rw [hsclass, show 32 - c = (30 - c) + 2 by omega, pow_add] at *
  rw [show 32 - 1 - c = (30 - c) + 1 by omega] at hlo
  apply Nat.le_antisymm
  · -- the lower bound `2 ^ (s + 1) ≤ x`
    rcases Nat.eq_zero_or_pos (30 - c) with h0 | hpos
    · rw [h0]
      exact Nat.zero_le _
    · have hle : 2 ^ (30 - c - 1) ≤ len / 4 := by
        rw [← hdiv, Nat.le_div_iff_mul_le (by decide)]
        rw [show 30 - c = (30 - c - 1) + 1 by omega, pow_succ] at hlo
        omega
      have := Nat.lt_size.mpr hle
      omega
  · -- the upper bound `x < 2 ^ (s + 2)`
    apply Nat.size_le.mpr
    rw [← hdiv]
    exact Nat.div_lt_of_lt_mul (by rw [Nat.mul_comm]; simpa using hhi)

/-- **A block of size class `sclass_for_length(len)` holds the length and `len` elements.** -/
lemma lt_sclassSize {len : ℕ} (h : len < 2 ^ 32) : len < sclassSize (sclassForLength len) := by
  rw [sclassSize_eq, sclassForLength_eq h]
  have := Nat.lt_size_self (len / 4)
  omega

lemma sclassForLength_mono {m n : ℕ} (hmn : m ≤ n) (hn : n < 2 ^ 32) :
    sclassForLength m ≤ sclassForLength n := by
  rw [sclassForLength_eq (by omega), sclassForLength_eq hn]
  exact Nat.size_le_size (Nat.div_le_div_right hmn)

lemma sclassSize_mono {a b : ℕ} (h : a ≤ b) : sclassSize a ≤ sclassSize b := by
  rw [sclassSize_eq, sclassSize_eq]
  exact Nat.mul_le_mul_left 4 (Nat.pow_le_pow_right (by decide) h)

/-- **The size class moves up by one exactly at the minimum lengths of size classes**, which is
what `push` and `remove_last` test. -/
lemma sclassForLength_succ {n : ℕ} (h : n + 1 < 2 ^ 32) :
    sclassForLength (n + 1) =
      if isSclassMinLength (n + 1) then sclassForLength n + 1 else sclassForLength n := by
  rw [sclassForLength_eq h, sclassForLength_eq (by omega)]
  by_cases h4 : (n + 1) % 4 = 0
  · -- a multiple of four starts a new quarter
    have hq : (n + 1) / 4 = n / 4 + 1 := by omega
    have hmin : isSclassMinLength (n + 1) = decide ((n / 4 + 1).isPowerOfTwo) := by
      have h3 : 3 < n + 1 := by omega
      have hiff := isPowerOfTwo_four_mul_iff (n / 4 + 1)
      rw [show 4 * (n / 4 + 1) = n + 1 by omega] at hiff
      simp only [isSclassMinLength, h3, decide_true, Bool.true_and]
      exact decide_eq_decide.mpr hiff
    rw [hq, size_succ, hmin]
    simp only [decide_eq_true_eq]
  · -- otherwise the quarter, and the size class, stay
    have hq : (n + 1) / 4 = n / 4 := by omega
    have hmin : isSclassMinLength (n + 1) = false := by
      cases hm : isSclassMinLength (n + 1) with
      | false => rfl
      | true =>
        simp only [isSclassMinLength, Bool.and_eq_true, decide_eq_true_eq] at hm
        exact absurd (mod_four_eq_zero_of_isPowerOfTwo hm.1 hm.2) h4
    rw [hq, hmin, if_neg (by decide)]

end SizeClasses

/-! ### The pool -/

namespace ListPool

variable {T : Type} [EntityNew T] [ReservedValue T]

/-- `ListPool::new`. -/
def new : ListPool T := ⟨[], []⟩

/-- `ListPool::clear`: forget every list. -/
def clear (_pool : ListPool T) : ListPool T := ⟨[], []⟩

/-- `len_of`: the length slot just before the list's first element. For the empty list, index
`0`, the source reads at `usize::MAX`, past the end of every vector. -/
def lenOf (pool : ListPool T) (list : EntityList T) : Option ℕ :=
  let idx := list.index.toNat
  if idx = 0 then none else pool.data[idx - 1]?.map EntityRef.index

/-- `alloc`: a block of the size class, the head of its free list if there is one, or else
new reserved slots at the end of the vector. -/
def alloc (pool : ListPool T) (sclass : ℕ) : Option (ℕ × ListPool T) :=
  match pool.free[sclass]?.filter (0 < ·) with
  | some head => do
    -- the heads and links point one past the start of a free block, at its link
    let next ← pool.data[head]?
    return (head - 1, { pool with free := pool.free.set sclass (EntityRef.index next) })
  | none =>
    let offset := pool.data.length
    some (offset, { pool with
      data := pool.data ++ List.replicate (sclassSize sclass) ReservedValue.reservedValue })

/-- `free`: clear the block's length slot and put the block at the head of the free list of its
size class. -/
def freeBlock (pool : ListPool T) (block sclass : ℕ) : Option (ListPool T) := do
  let free := if pool.free.length ≤ sclass then
      pool.free ++ List.replicate (sclass + 1 - pool.free.length) 0
    else pool.free
  let data ← Slice.setAt pool.data block (EntityNew.new 0)
  -- `free[sclass]` is in bounds after the resize
  let data ← Slice.setAt data (block + 1) (EntityNew.new (free[sclass]?.getD 0))
  return ⟨data, free.set sclass (block + 1)⟩

/-- `mut_slices(block0, block1)` and the copy of `n` elements from the front of the first slice
to the front of the second: the vector is split at the later block, and each slice must hold the
`n` elements. -/
def copyBlock (data : List T) (block0 block1 n : ℕ) : Option (List T) :=
  if block0 < block1 then
    if block1 ≤ data.length ∧ n ≤ block1 - block0 ∧ n ≤ data.length - block1 then
      Slice.write data block1 (Slice.read data block0 n)
    else none
  else if block0 ≤ data.length ∧ n ≤ data.length - block0 ∧ n ≤ block0 - block1 then
    Slice.write data block1 (Slice.read data block0 n)
  else none

/-- `realloc`: move a block to another size class, copying its first `elemsToCopy` slots, and
free the old block. -/
def realloc (pool : ListPool T) (block fromSclass toSclass elemsToCopy : ℕ) :
    Option (ℕ × ListPool T) := do
  if ¬(elemsToCopy ≤ sclassSize fromSclass ∧ elemsToCopy ≤ sclassSize toSclass) then none
  let (newBlock, pool) ← pool.alloc toSclass
  let pool ← if 0 < elemsToCopy then do
      let data ← copyBlock pool.data block newBlock elemsToCopy
      pure { pool with data }
    else pure pool
  let pool ← pool.freeBlock block fromSclass
  return (newBlock, pool)

end ListPool

/-! ### Entity lists -/

/-- The bound of a range, `core::ops::Bound`. -/
inductive Bound where
  | included (x : ℕ)
  | excluded (x : ℕ)
  | unbounded
deriving DecidableEq, Repr

namespace EntityList

variable {T : Type} [EntityNew T] [ReservedValue T]

/-- `EntityList::new`, the empty list. -/
def new : EntityList T := ⟨0⟩

/-- `is_empty`. -/
def isEmpty (l : EntityList T) : Bool := l.index = 0

/-- `len`: the length slot, `0` for the empty list. -/
def len (l : EntityList T) (pool : ListPool T) : ℕ := (pool.lenOf l).getD 0

/-- `as_mut_slice`, as the range of the data it borrows: its start and its length. -/
def asMutSlice (l : EntityList T) (pool : ListPool T) : Option (ℕ × ℕ) :=
  match pool.lenOf l with
  | none => some (0, 0)
  | some len =>
    let idx := l.index.toNat
    if idx + len ≤ pool.data.length then some (idx, len) else none

/-- `from_slice`: a block for the elements, their length first. -/
def fromSlice (slice : List T) (pool : ListPool T) : Option (EntityList T × ListPool T) :=
  let len := slice.length
  if len = 0 then some (new, pool)
  else do
    let (block, pool) ← pool.alloc (sclassForLength len)
    let data ← Slice.setAt pool.data block (EntityNew.new len)
    let data ← Slice.write data (block + 1) slice
    return (⟨UInt32.ofNat (block + 1)⟩, { pool with data })

/-- `deep_clone`: a new block holding a copy of the list. -/
def deepClone (l : EntityList T) (pool : ListPool T) : Option (EntityList T × ListPool T) :=
  match pool.lenOf l with
  | none => some (new, pool)
  | some len => do
    let src := l.index.toNat
    let (block, pool) ← pool.alloc (sclassForLength len)
    let data ← Slice.setAt pool.data block (EntityNew.new len)
    let data ← Slice.copyWithin data src len (block + 1)
    return (⟨UInt32.ofNat (block + 1)⟩, { pool with data })

/-- `clear`: free the list's block, and become the empty list. -/
def clear (l : EntityList T) (pool : ListPool T) : Option (EntityList T × ListPool T) :=
  let idx := l.index.toNat
  match pool.lenOf l with
  -- `debug_assert_eq!(idx, 0, "Invalid pool")`
  | none => if idx = 0 then some (new, pool) else none
  | some len => do
    let pool ← pool.freeBlock (idx - 1) (sclassForLength len)
    return (new, pool)

/-- `push`: append an element, moving to the next size class when the block is full; returns the
element's index. -/
def push (l : EntityList T) (element : T) (pool : ListPool T) :
    Option (ℕ × EntityList T × ListPool T) :=
  let idx := l.index.toNat
  match pool.lenOf l with
  | none => do
    -- `debug_assert_eq!(idx, 0, "Invalid pool")`
    if idx ≠ 0 then none
    let (block, pool) ← pool.alloc (sclassForLength 1)
    let data ← Slice.setAt pool.data block (EntityNew.new 1)
    let data ← Slice.setAt data (block + 1) element
    return (0, ⟨UInt32.ofNat (block + 1)⟩, { pool with data })
  | some len => do
    let newLen := len + 1
    let (block, l, pool) ← if isSclassMinLength newLen then do
        let sclass := sclassForLength len
        let (block, pool) ← pool.realloc (idx - 1) sclass (sclass + 1) (len + 1)
        pure (block, (⟨UInt32.ofNat (block + 1)⟩ : EntityList T), pool)
      else pure (idx - 1, l, pool)
    let data ← Slice.setAt pool.data (block + newLen) element
    let data ← Slice.setAt data block (EntityNew.new newLen)
    return (len, l, { pool with data })

/-- `grow`: add `count` slots at the end of the list, moving it to the size class of its new
length; returns the list, the pool, and the range of the data holding the whole list. -/
def grow (l : EntityList T) (count : ℕ) (pool : ListPool T) :
    Option (EntityList T × ListPool T × ℕ × ℕ) :=
  let idx := l.index.toNat
  match pool.lenOf l with
  | none =>
    -- `debug_assert_eq!(idx, 0, "Invalid pool")`
    if idx ≠ 0 then none
    else if count = 0 then some (l, pool, 0, 0)
    else do
      let (block, pool) ← pool.alloc (sclassForLength count)
      setLength ⟨UInt32.ofNat (block + 1)⟩ pool block count
  | some len =>
    let sclass := sclassForLength len
    let newLen := len + count
    let newSclass := sclassForLength newLen
    if newSclass ≠ sclass then do
      let (block, pool) ← pool.realloc (idx - 1) sclass newSclass (len + 1)
      setLength ⟨UInt32.ofNat (block + 1)⟩ pool block newLen
    else setLength l pool (idx - 1) newLen
where
  /-- `pool.data[block] = T::new(new_len)`, then the borrow of the list's elements. -/
  setLength (l : EntityList T) (pool : ListPool T) (block newLen : ℕ) :
      Option (EntityList T × ListPool T × ℕ × ℕ) := do
    let data ← Slice.setAt pool.data block (EntityNew.new newLen)
    if block + 1 + newLen ≤ data.length then some (l, { pool with data }, block + 1, newLen)
    else none

/-- `extend`. An iterator whose size hint is exact (`exactSize`) fills slots made by `grow`; any
other is pushed one element at a time. -/
def extend (l : EntityList T) (elements : List T) (exactSize : Bool) (pool : ListPool T) :
    Option (EntityList T × ListPool T) :=
  if exactSize then do
    let (l, pool, start, n) ← l.grow elements.length pool
    -- `data[offset..]` zipped with the elements: the last `elements.len()` slots
    let data ← Slice.write pool.data (start + (n - elements.length)) elements
    return (l, { pool with data })
  else
    elements.foldlM (fun (l, pool) x => do
      let (_, l, pool) ← l.push x pool
      return (l, pool)) (l, pool)

/-- `grow_at`: `count` new slots at `index`, moving the elements after `index` up from the top
down. The new slots hold what the moved elements left there. -/
def growAt (l : EntityList T) (index count : ℕ) (pool : ListPool T) :
    Option (EntityList T × ListPool T) := do
  let (l, pool, start, n) ← l.grow count pool
  let data ← Slice.shiftUp pool.data (start + (index + count)) (start + n) count
  return (l, { pool with data })

/-- `copy_from`: copy the range of `other` given by its bounds to `index` in this list. The range
is taken at the data indices of `other` before `grow_at` runs. -/
def copyFrom (self other : EntityList T) (startBound endBound : Bound) (index : ℕ)
    (pool : ListPool T) : Option (EntityList T × ListPool T) := do
  if ¬index ≤ self.len pool then none
  if self.index = other.index then none
  let otherIndex := other.index.toNat
  let otherLen := other.len pool
  let start := (match startBound with
    | .included x => x
    | .excluded x => x + 1
    | .unbounded => 0) + otherIndex
  let stop := (match endBound with
    | .included x => x + 1
    | .excluded x => x
    | .unbounded => otherLen) + otherIndex
  -- `end - start` overflows
  if stop < start then none
  let count := stop - start
  if ¬count ≤ otherLen then none
  let (self, pool) ← self.growAt index count pool
  let data ← Slice.copyWithin pool.data start count (index + self.index.toNat)
  return (self, { pool with data })

/-- `insert`: push the element, then move the tail from `index` up by one and put the element at
`index`. An `index` one past the new end is accepted by the `debug_assert_eq!`, as a push. -/
def insert (l : EntityList T) (index : ℕ) (element : T) (pool : ListPool T) :
    Option (EntityList T × ListPool T) := do
  let (_, l, pool) ← l.push element pool
  let (start, seqLen) ← l.asMutSlice pool
  if index < seqLen then do
    -- `tail = &mut seq[index..]`: `tail[i] = tail[i - 1]` from the top down, then `tail[0]`
    let data ← Slice.shiftUp pool.data (start + index + 1) (start + seqLen) 1
    let data ← Slice.setAt data (start + index) element
    return (l, { pool with data })
  -- `debug_assert_eq!(index, seq.len())`
  else if index = seqLen then some (l, pool)
  else none

/-- `remove_last`: drop the last of `len` elements, moving to the next smaller size class when
the length leaves it; the last element clears the list. -/
def removeLast (l : EntityList T) (len : ℕ) (pool : ListPool T) :
    Option (EntityList T × ListPool T) :=
  if len = 1 then l.clear pool
  else do
    -- `self.index as usize - 1` overflows for the empty list
    if l.index.toNat = 0 then none
    let block := l.index.toNat - 1
    -- the size class is at least `1` here, so the `u8` subtraction does not wrap
    let (block, l, pool) ← if isSclassMinLength len then do
        let sclass := sclassForLength len
        let (block, pool) ← pool.realloc block sclass (sclass - 1) len
        pure (block, (⟨UInt32.ofNat (block + 1)⟩ : EntityList T), pool)
      else pure (block, l, pool)
    let data ← Slice.setAt pool.data block (EntityNew.new (len - 1))
    return (l, { pool with data })

/-- `remove`: move the elements after `index` down by one from the bottom up, then drop the
last. -/
def remove (l : EntityList T) (index : ℕ) (pool : ListPool T) :
    Option (EntityList T × ListPool T) := do
  let (start, len) ← l.asMutSlice pool
  -- `debug_assert!(index < len)`
  if ¬index < len then none
  let data ← Slice.shiftDown pool.data (start + index) (start + (len - 1)) 1
  l.removeLast len { pool with data }

/-- `swap_remove`: swap the element at `index` with the last, then drop the last. -/
def swapRemove (l : EntityList T) (index : ℕ) (pool : ListPool T) :
    Option (EntityList T × ListPool T) := do
  let (start, len) ← l.asMutSlice pool
  -- `debug_assert!(index < len)`
  if ¬index < len then none
  let pool ← if index ≠ len - 1 then do
      -- `seq.swap(index, len - 1)`
      let a ← pool.data[start + index]?
      let b ← pool.data[start + (len - 1)]?
      let data ← Slice.setAt pool.data (start + index) b
      let data ← Slice.setAt data (start + (len - 1)) a
      pure { pool with data }
    else pure pool
  l.removeLast len pool

/-- `truncate`: keep the first `newLen` elements, moving to the size class of the new length. -/
def truncate (l : EntityList T) (newLen : ℕ) (pool : ListPool T) :
    Option (EntityList T × ListPool T) :=
  if newLen = 0 then l.clear pool
  else
    match pool.lenOf l with
    | none => some (l, pool)
    | some len =>
      if len ≤ newLen then some (l, pool)
      else do
        let idx := l.index.toNat
        let sclass := sclassForLength len
        let newSclass := sclassForLength newLen
        let (block, l, pool) ← if sclass ≠ newSclass then do
            let (block, pool) ← pool.realloc (idx - 1) sclass newSclass (newLen + 1)
            pure (block, (⟨UInt32.ofNat (block + 1)⟩ : EntityList T), pool)
          else pure (idx - 1, l, pool)
        let data ← Slice.setAt pool.data block (EntityNew.new newLen)
        return (l, { pool with data })

end EntityList

end Cranelift.Entity
