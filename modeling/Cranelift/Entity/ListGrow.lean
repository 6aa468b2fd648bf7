import Cranelift.Entity.ListOps

/-!
# Growing entity lists

`grow` and the operations built on it, `grow_at`, `extend` and `copy_from`; and `deep_clone`,
which fills a new block from another list. `grow` moves a list to the size class of its new
length, as `push` does one element at a time. The slots it adds hold whatever the block held
there: what a freed list or a `realloc` left behind, or the reserved value of a fresh block. The
specs leave them unspecified, as a list `junk` of the right length.

## Main results

* `Cranelift.Entity.EntityList.grow_spec`, `growAt_spec`, `extend_spec`, `copyFrom_spec`,
  `deepClone_spec`.
-/

namespace Cranelift.Entity

variable {T : Type} [EntityNew T]

/-- The first index of a range, as `copy_from` reads its start bound. -/
def Bound.startIndex : Bound → ℕ
  | .included x => x
  | .excluded x => x + 1
  | .unbounded => 0

/-- The index past the end of a range of a list of length `len`, as `copy_from` reads its end
bound. -/
def Bound.endIndex (len : ℕ) : Bound → ℕ
  | .included x => x + 1
  | .excluded x => x
  | .unbounded => len

/-- The empty list is a list of any well-formed pool. -/
lemma ListWf.new_of {pool : ListPool T} {frees : List Block} {l : EntityList T} {xs : List T}
    (hw : ListWf pool frees l xs) : ListWf pool frees EntityList.new [] :=
  ⟨EntityList.holds_new _, hw.pool, hw.frees_disjoint, fun _ hB => absurd hB List.not_mem_nil⟩

namespace EntityList

variable {pool : ListPool T} {frees : List Block} {l : EntityList T} {xs : List T}

/-! ### `grow` -/

/-- The write that ends `grow`: the new length into the length slot of a block whose next slots
hold the elements. The slots after them keep what they held. -/
lemma setLength_grows (xs : List T) (l' : EntityList T) (pool₁ : ListPool T) {b count : ℕ}
    (hpos : 0 < xs.length + count) (hshort : xs.length + count < 2 ^ 32)
    (helems : ∀ k < xs.length, pool₁.data[b + 1 + k]? = xs[k]?)
    (hin : (⟨b, sclassForLength (xs.length + count)⟩ : Block).stop ≤ pool₁.data.length) :
    ∃ data', grow.setLength l' pool₁ b (xs.length + count) =
        some (l', { pool₁ with data := data' }, b + 1, xs.length + count) ∧
      Frame pool₁.data data' [⟨b, sclassForLength (xs.length + count)⟩] ∧
      data'.length = pool₁.data.length ∧
      Stores data' b (xs ++ Slice.read pool₁.data (b + 1 + xs.length) count) := by
  set junk := Slice.read pool₁.data (b + 1 + xs.length) count
  have hroom := lt_sclassSize hshort
  have hin' : b + sclassSize (sclassForLength (xs.length + count)) ≤ pool₁.data.length := hin
  have hjunk : junk.length = count := Slice.length_read (by omega)
  have hlen : (xs ++ junk).length = xs.length + count := by rw [List.length_append, hjunk]
  have hne : xs ++ junk ≠ [] := by
    intro h
    rw [h, List.length_nil] at hlen
    omega
  -- the elements, then what the block held after them
  have helems' : ∀ k < (xs ++ junk).length, pool₁.data[b + 1 + k]? = (xs ++ junk)[k]? := by
    intro k hk
    rw [hlen] at hk
    rw [List.getElem?_append]
    by_cases hkx : k < xs.length
    · rw [if_pos hkx, helems k hkx]
    · rw [if_neg hkx, Slice.getElem?_read, if_pos (by omega),
        show b + 1 + xs.length + (k - xs.length) = b + 1 + k by omega]
  have hblock : listBlock b (xs ++ junk) = ⟨b, sclassForLength (xs.length + count)⟩ := by
    rw [listBlock, hlen]
  obtain ⟨data', hset, hf, hlen', hs⟩ :=
    setLength_writes hne (by rw [hlen]; exact hshort) helems' (by rw [hblock]; exact hin)
  rw [hlen] at hset
  refine ⟨data', ?_, hblock ▸ hf, hlen', hs⟩
  have hfits : b + 1 + (xs.length + count) ≤ data'.length := by omega
  simp [grow.setLength, hset, hfits]

variable [ReservedValue T]

/-- **`grow` adds `count` slots at the end of the list**, holding what the block held there: the
empty list takes a first block unless `count` is `0`, a list whose new length is of another size
class moves there by `realloc`, and any other grows in its block. It returns the range of the
whole list: from the list's new index, its new length. -/
theorem grow_spec (hw : ListWf pool frees l xs) (count : ℕ) (hshort : xs.length + count < 2 ^ 32)
    (hfit : pool.data.length + sclassSize (sclassForLength (xs.length + count)) < 2 ^ 32) :
    ∃ l' pool' frees' junk,
      l.grow count pool = some (l', pool', l'.index.toNat, xs.length + count) ∧
      junk.length = count ∧ Moves pool frees l xs pool' frees' l' (xs ++ junk) ∧
      pool'.data.length ≤ pool.data.length + sclassSize (sclassForLength (xs.length + count)) := by
  have hroom := lt_sclassSize hshort
  by_cases hxs : xs = []
  · subst hxs
    have hidx : l.index = 0 := holds_nil_iff.mp hw.holds
    have hlenOf := ListPool.lenOf_of_holds_nil hw.holds
    simp only [List.length_nil, Nat.zero_add, List.nil_append] at hshort hfit hroom ⊢
    by_cases hcount : count = 0
    · -- nothing to grow: the empty list stays
      subst hcount
      refine ⟨l, pool, frees, [], ?_, rfl, Moves.refl hw, Nat.le_add_right _ _⟩
      simp [grow, hlenOf, hidx]
    · -- a first block, of the class of `count`
      obtain ⟨b, pool₁, frees₁, halloc, hw₁, hf₁, hstop, hlen₁, htaken⟩ :=
        ListPool.alloc_spec hw.pool (sclassForLength count) hfit
      have hstop' : b + sclassSize (sclassForLength count) ≤ pool₁.data.length := hstop
      obtain ⟨data', hset, hf, hlen', hs⟩ := setLength_grows [] ⟨UInt32.ofNat (b + 1)⟩ pool₁
        (by simpa using Nat.pos_of_ne_zero hcount) (by simpa using hshort)
        (fun k hk => absurd hk (Nat.not_lt_zero k)) (by simpa using hstop)
      simp only [List.length_nil, Nat.zero_add, Nat.add_zero, List.nil_append] at hset hf hs
      have hjunk : (Slice.read pool₁.data (b + 1) count).length = count :=
        Slice.length_read (by omega)
      refine ⟨_, _, frees₁, _, ?_, hjunk,
        Moves.of_alloc hw hw₁ hf₁ hstop htaken hf hlen' hs (by rw [hjunk]),
        by rw [hlen']; exact hlen₁⟩
      rw [toNat_ofNat_succ (hw₁.succ_lt_of_stop_le hstop)]
      simpa [grow, hlenOf, hidx, hcount, halloc] using hset
  · obtain ⟨hpos, hst⟩ := hw.holds.stores hxs
    have hlenOf := ListPool.lenOf_of_stores hpos hst
    have hlen0 : 0 < xs.length := List.length_pos_iff.mpr hxs
    have hin : l.index.toNat - 1 + sclassSize (sclassForLength xs.length) ≤ pool.data.length :=
      hst.inside
    by_cases hclass : sclassForLength (xs.length + count) = sclassForLength xs.length
    · -- the list grows in its block
      obtain ⟨data', hset, hf, hlen', hs⟩ := setLength_grows xs l pool (by omega) hshort
        (fun k hk => hst.getElem?_elem hk) (by rw [hclass]; exact hst.inside)
      have hin' : l.index.toNat - 1 + sclassSize (sclassForLength (xs.length + count)) ≤
          pool.data.length := by rw [hclass]; exact hin
      have hjunk : (Slice.read pool.data (l.index.toNat - 1 + 1 + xs.length) count).length =
          count := Slice.length_read (by omega)
      rw [hclass] at hf
      refine ⟨l, _, frees, _, ?_, hjunk, Moves.in_place hw hxs hf hlen' hs
        (by rw [List.length_append, hjunk, hclass]), by rw [hlen']; exact Nat.le_add_right _ _⟩
      simp [grow, hlenOf, hclass, hset, Nat.sub_add_cancel hpos]
    · -- the list moves to the class of its new length, the old length slot and elements along
      have hcount : count ≠ 0 := by
        rintro rfl
        exact hclass rfl
      have hn : xs.length + 1 ≤ sclassSize (sclassForLength xs.length) := lt_sclassSize hst.short
      have hn' : xs.length + 1 ≤ sclassSize (sclassForLength (xs.length + count)) := by omega
      obtain ⟨b', pool₁, frees₁, hre, hw₁, hf₁, hstop, hlen₁, htaken, happart, hread⟩ :=
        ListPool.realloc_spec hw.pool hw.frees_disjoint hst.inside
          (hw.own_disjoint _ (by rw [ownBlocks_of_ne_nil hxs]; exact List.mem_singleton_self _))
          hn hn' hfit
      have hre' : pool.realloc (l.index.toNat - 1) (sclassForLength xs.length)
          (sclassForLength (xs.length + count)) (xs.length + 1) = some (b', pool₁) := hre
      have hstop' : b' + sclassSize (sclassForLength (xs.length + count)) ≤ pool₁.data.length :=
        hstop
      obtain ⟨data', hset, hf, hlen', hs⟩ := setLength_grows xs ⟨UInt32.ofNat (b' + 1)⟩ pool₁
        (by omega) hshort (fun k hk => hst.getElem?_of_copy hread hk (by omega)) hstop
      have hjunk : (Slice.read pool₁.data (b' + 1 + xs.length) count).length = count :=
        Slice.length_read (by omega)
      refine ⟨_, _, _, _, ?_, hjunk, Moves.of_realloc hw hxs hw₁ hf₁ hstop htaken happart hf
        hlen' hs (by rw [List.length_append, hjunk]), by rw [hlen']; exact hlen₁⟩
      rw [toNat_ofNat_succ (hw₁.succ_lt_of_stop_le hstop)]
      simpa [grow, hlenOf, hclass, hre'] using hset

/-! ### `grow_at` -/

/-- **`grow_at` puts `count` slots in at `index`**: `grow`, then the elements from `index` on
move up by `count`, from the top down. The new slots hold what `grow` left at `index`. -/
theorem growAt_spec (hw : ListWf pool frees l xs) {index : ℕ} (hindex : index ≤ xs.length)
    (count : ℕ) (hshort : xs.length + count < 2 ^ 32)
    (hfit : pool.data.length + sclassSize (sclassForLength (xs.length + count)) < 2 ^ 32) :
    ∃ l' pool' frees' junk, l.growAt index count pool = some (l', pool') ∧ junk.length = count ∧
      Moves pool frees l xs pool' frees' l' (xs.take index ++ junk ++ xs.drop index) ∧
      pool'.data.length ≤ pool.data.length + sclassSize (sclassForLength (xs.length + count)) := by
  obtain ⟨l₁, pool₁, frees₁, junk₁, hgrow, hjunk₁, hmoves₁, hlen₁⟩ :=
    grow_spec hw count hshort hfit
  have hys : (xs ++ junk₁).length = xs.length + count := by rw [List.length_append, hjunk₁]
  have hend : l₁.index.toNat + (xs ++ junk₁).length ≤ pool₁.data.length :=
    hmoves₁.wf.holds.end_le
  obtain ⟨data₂, hshift, hlen₂, hget₂⟩ := Slice.shiftUp_spec
    (show count ≤ l₁.index.toNat + (index + count) by omega)
    (show l₁.index.toNat + (xs.length + count) ≤ pool₁.data.length by omega)
  set junk := ((xs ++ junk₁).drop index).take count with hjunk_def
  have hjunk : junk.length = count := by
    rw [List.length_take, List.length_drop, hys]
    omega
  have hgrowAt : l.growAt index count pool = some (l₁, { pool₁ with data := data₂ }) := by
    simp [growAt, hgrow, hshift]
  refine ⟨l₁, _, frees₁, junk, hgrowAt, hjunk, ?_, by rw [hlen₂]; exact hlen₁⟩
  by_cases hne : xs ++ junk₁ = []
  · -- the list is still empty, and nothing moves
    obtain ⟨rfl, rfl⟩ := List.append_eq_nil_iff.mp hne
    have hcount : count = 0 := hjunk₁.symm
    have hdata : data₂ = pool₁.data := List.ext_getElem? fun j => by
      rw [hget₂ j, if_neg (by simp only [List.length_nil] at hys ⊢; omega)]
    subst hdata
    have hpool : ({ pool₁ with data := pool₁.data } : ListPool T) = pool₁ := rfl
    rw [hpool]
    simpa [hjunk_def, hcount] using hmoves₁
  · have hold : ∀ i < (xs ++ junk₁).length,
        pool₁.data[l₁.index.toNat + i]? = (xs ++ junk₁)[i]? := fun _ hi =>
      hmoves₁.wf.holds.getElem?_elem hi
    refine hmoves₁.trans (Moves.of_elems hmoves₁.wf hne hlen₂ ?_ ?_ ?_)
    · rw [List.length_append, List.length_append, List.length_take_of_le hindex, hjunk,
        List.length_drop, hys]
      omega
    · intro j hj
      rw [hys] at hj
      rw [hget₂ j, if_neg fun h => hj ⟨by omega, h.2⟩]
    · intro k hk
      rw [hys] at hk
      rw [hget₂, Slice.getElem?_splice hindex, hjunk]
      by_cases hup : index + count ≤ k
      · -- an element from `index` on, moved up by `count`
        rw [if_pos ⟨by omega, by omega⟩, if_neg (by omega), if_neg (by omega),
          show l₁.index.toNat + k - count = l₁.index.toNat + (k - count) by omega,
          hold _ (by omega), List.getElem?_append_left (by omega)]
      · rw [if_neg (by omega), hold _ (by omega)]
        by_cases hki : k < index
        · -- an element before `index`, in place
          rw [if_pos hki, List.getElem?_append_left (by omega)]
        · -- a new slot
          rw [if_neg hki, if_pos (by omega), hjunk_def, List.getElem?_take, if_pos (by omega),
            List.getElem?_drop, show index + (k - index) = k by omega]

/-! ### `extend` -/

omit [ReservedValue T] in
/-- `sclass_size(sclass_for_length(_))` grows with the length. -/
lemma sclassSize_sclassForLength_mono {m n : ℕ} (hmn : m ≤ n) (hn : n < 2 ^ 32) :
    sclassSize (sclassForLength m) ≤ sclassSize (sclassForLength n) :=
  sclassSize_mono (sclassForLength_mono hmn hn)

/-- Without an exact size hint, `extend` pushes the first element, then extends by the rest. -/
lemma extend_cons (x : T) (rest : List T) :
    l.extend (x :: rest) false pool = (do
      let (_, l₁, pool₁) ← l.push x pool
      l₁.extend rest false pool₁) := by
  simp only [extend, List.foldlM_cons, Bool.false_eq_true, if_false]
  cases l.push x pool with
  | none => rfl
  | some r => rfl

/-- **The push loop of `extend`**: each push needs at most a block of the final length. -/
lemma extend_pushes (elements : List T) (hw : ListWf pool frees l xs)
    (hshort : xs.length + elements.length < 2 ^ 32)
    (hfit : pool.data.length +
      elements.length * sclassSize (sclassForLength (xs.length + elements.length)) < 2 ^ 32) :
    ∃ l' pool' frees', l.extend elements false pool = some (l', pool') ∧
      Moves pool frees l xs pool' frees' l' (xs ++ elements) ∧
      pool'.data.length ≤ pool.data.length +
        elements.length * sclassSize (sclassForLength (xs.length + elements.length)) := by
  induction elements generalizing pool frees l xs with
  | nil => exact ⟨l, pool, frees, rfl, by simpa using Moves.refl hw, by simp⟩
  | cons x rest ih =>
    rw [List.length_cons] at hshort hfit ⊢
    rw [Nat.succ_mul] at hfit ⊢
    have hfirst := sclassSize_sclassForLength_mono
      (show xs.length + 1 ≤ xs.length + (rest.length + 1) by omega) hshort
    obtain ⟨l₁, pool₁, frees₁, hpush, hmoves₁, hlen₁⟩ := push_spec hw x (by omega)
    have hsame : (xs ++ [x]).length + rest.length = xs.length + (rest.length + 1) := by
      rw [List.length_append, List.length_singleton]
      omega
    obtain ⟨l', pool', frees', hext, hmoves₂, hlen₂⟩ :=
      ih hmoves₁.wf (by omega) (by rw [hsame]; omega)
    rw [hsame] at hlen₂
    refine ⟨l', pool', frees', by rw [extend_cons, hpush]; exact hext, ?_, by omega⟩
    simpa using hmoves₁.trans hmoves₂

/-- **`extend` appends the elements**: with an exact size hint it grows the list once and writes
them into the new slots, and otherwise it pushes them one by one. -/
theorem extend_spec (hw : ListWf pool frees l xs) (elements : List T) (exactSize : Bool)
    (hshort : xs.length + elements.length < 2 ^ 32)
    (hfit : pool.data.length +
      (elements.length + 1) * sclassSize (sclassForLength (xs.length + elements.length)) < 2 ^ 32) :
    ∃ l' pool' frees', l.extend elements exactSize pool = some (l', pool') ∧
      Moves pool frees l xs pool' frees' l' (xs ++ elements) ∧
      pool'.data.length ≤ pool.data.length +
        (elements.length + 1) * sclassSize (sclassForLength (xs.length + elements.length)) := by
  rw [Nat.succ_mul] at hfit ⊢
  cases exactSize with
  | false =>
    obtain ⟨l', pool', frees', hext, hmoves, hlen⟩ := extend_pushes elements hw hshort (by omega)
    exact ⟨l', pool', frees', hext, hmoves, by omega⟩
  | true =>
    obtain ⟨l₁, pool₁, frees₁, junk, hgrow, hjunk, hmoves₁, hlen₁⟩ :=
      grow_spec hw elements.length hshort (by omega)
    have hys : (xs ++ junk).length = xs.length + elements.length := by
      rw [List.length_append, hjunk]
    have hend : l₁.index.toNat + (xs ++ junk).length ≤ pool₁.data.length :=
      hmoves₁.wf.holds.end_le
    obtain ⟨data₂, hwrite⟩ : ∃ data₂,
        Slice.write pool₁.data (l₁.index.toNat + xs.length) elements = some data₂ :=
      ⟨_, Slice.write_of_le (by omega)⟩
    have hlen₂ := Slice.length_of_write hwrite
    have hext : l.extend elements true pool = some (l₁, { pool₁ with data := data₂ }) := by
      simp [extend, hgrow, hwrite]
    refine ⟨l₁, _, frees₁, hext, ?_, by rw [hlen₂]; omega⟩
    by_cases hne : xs ++ junk = []
    · -- no elements, and the list is still empty
      obtain ⟨rfl, rfl⟩ := List.append_eq_nil_iff.mp hne
      have hnil : elements = [] := List.length_eq_zero_iff.mp hjunk.symm
      subst hnil
      have hdata : data₂ = pool₁.data := List.ext_getElem? fun j => by
        rw [Slice.getElem?_of_write hwrite, if_neg (by simp)]
      subst hdata
      have hpool : ({ pool₁ with data := pool₁.data } : ListPool T) = pool₁ := rfl
      rw [hpool]
      simpa using hmoves₁
    · -- the elements go into the new slots
      have hold : ∀ i < (xs ++ junk).length,
          pool₁.data[l₁.index.toNat + i]? = (xs ++ junk)[i]? := fun _ hi =>
        hmoves₁.wf.holds.getElem?_elem hi
      refine hmoves₁.trans (Moves.of_elems hmoves₁.wf hne hlen₂
        (by rw [List.length_append, hys]) ?_ ?_)
      · intro j hj
        rw [hys] at hj
        rw [Slice.getElem?_of_write hwrite, if_neg fun h => hj ⟨by omega, by omega⟩]
      · intro k hk
        rw [hys] at hk
        rw [Slice.getElem?_of_write hwrite, List.getElem?_append]
        by_cases hkx : k < xs.length
        · rw [if_neg (by omega), if_pos hkx, hold _ (by omega), List.getElem?_append_left hkx]
        · rw [if_pos ⟨by omega, by omega⟩, if_neg hkx,
            show l₁.index.toNat + k - (l₁.index.toNat + xs.length) = k - xs.length by omega]

/-! ### `copy_from` -/

omit [ReservedValue T] in
/-- Two lists, not both empty, whose blocks are apart have different indices. -/
lemma index_ne_of_apart {data : List T} {other : EntityList T} {ys : List T}
    (h : Holds data l xs) (ho : Holds data other ys) (hne : xs ≠ [] ∨ ys ≠ [])
    (hapart : ∀ B ∈ ownBlocks other ys, ∀ B' ∈ ownBlocks l xs, B.Disjoint B') :
    l.index ≠ other.index := by
  intro heq
  by_cases hxs : xs = []
  · obtain ⟨hpos, -⟩ := ho.stores (hne.resolve_left (not_not_intro hxs))
    rw [← heq, holds_nil_iff.mp (hxs ▸ h)] at hpos
    exact Nat.lt_irrefl 0 hpos
  · obtain ⟨hpos, hst⟩ := h.stores hxs
    by_cases hys : ys = []
    · rw [heq, holds_nil_iff.mp (hys ▸ ho)] at hpos
      exact Nat.lt_irrefl 0 hpos
    · -- both blocks start just before the same index
      obtain ⟨-, hsto⟩ := ho.stores hys
      have hd := hapart _ (by rw [ownBlocks_of_ne_nil hys]; exact List.mem_singleton_self _) _
        (by rw [ownBlocks_of_ne_nil hxs]; exact List.mem_singleton_self _)
      refine hd.not_mem (hsto.mem_of_le (Nat.le_refl _) (Nat.le_add_right _ _)) ?_
      rw [← heq]
      exact hst.mem_of_le (Nat.le_refl _) (Nat.le_add_right _ _)

/-- `copy_from` with its range read by `Bound.startIndex` and `Bound.endIndex`. -/
lemma copyFrom_eq (self other : EntityList T) (startBound endBound : Bound) (index : ℕ)
    (pool : ListPool T) :
    self.copyFrom other startBound endBound index pool = (do
      if ¬index ≤ self.len pool then none
      if self.index = other.index then none
      let start := startBound.startIndex + other.index.toNat
      let stop := endBound.endIndex (other.len pool) + other.index.toNat
      if stop < start then none
      let count := stop - start
      if ¬count ≤ other.len pool then none
      let (self, pool) ← self.growAt index count pool
      let data ← Slice.copyWithin pool.data start count (index + self.index.toNat)
      return (self, { pool with data })) := by
  cases startBound <;> cases endBound <;> rfl

/-- **`copy_from` puts a range of another list in at `index`**: `grow_at` makes room, then
`copy_within` copies the range from the data indices of the other list taken before `grow_at`
ran. The other list's block is apart from all that `grow_at` writes, so these indices still hold
its elements. -/
theorem copyFrom_spec (hw : ListWf pool frees l xs) {other : EntityList T} {ys : List T}
    (ho : Holds pool.data other ys)
    (hapart : ∀ B ∈ ownBlocks other ys, ∀ B' ∈ ownBlocks l xs ++ frees, B.Disjoint B')
    (hne : xs ≠ [] ∨ ys ≠ []) {startBound endBound : Bound} {index : ℕ}
    (hindex : index ≤ xs.length) (hrange : startBound.startIndex ≤ endBound.endIndex ys.length)
    (hend : endBound.endIndex ys.length ≤ ys.length)
    (hshort : xs.length + (endBound.endIndex ys.length - startBound.startIndex) < 2 ^ 32)
    (hfit : pool.data.length + sclassSize (sclassForLength
      (xs.length + (endBound.endIndex ys.length - startBound.startIndex))) < 2 ^ 32) :
    ∃ l' pool' frees', l.copyFrom other startBound endBound index pool = some (l', pool') ∧
      Moves pool frees l xs pool' frees' l' (xs.take index ++
        (ys.drop startBound.startIndex).take (endBound.endIndex ys.length - startBound.startIndex) ++
        xs.drop index) ∧
      pool'.data.length ≤ pool.data.length + sclassSize (sclassForLength
        (xs.length + (endBound.endIndex ys.length - startBound.startIndex))) := by
  have hcf := copyFrom_eq l other startBound endBound index pool
  rw [len_of_holds ho] at hcf
  generalize ha : startBound.startIndex = a at *
  generalize he : endBound.endIndex ys.length = e at *
  have hslice_len : ((ys.drop a).take (e - a)).length = e - a := by
    rw [List.length_take, List.length_drop]
    omega
  obtain ⟨l₁, pool₁, frees₁, junk, hgrowAt, hjunk, hmoves₁, hlen₁⟩ :=
    growAt_spec hw hindex (e - a) hshort hfit
  have hoend : other.index.toNat + ys.length ≤ pool.data.length := ho.end_le
  have hlen_le := hmoves₁.frame.length_le
  -- the range of `other`, read after `grow_at`
  have hread : Slice.read pool₁.data (a + other.index.toNat) (e - a) = (ys.drop a).take (e - a) := by
    by_cases hc : e - a = 0
    · rw [hc]
      rfl
    · have hys : ys ≠ [] := by
        rintro rfl
        simp only [List.length_nil] at hend
        omega
      obtain ⟨hopos, hsto⟩ := ho.stores hys
      have hroom := lt_sclassSize hsto.short
      have hBo : (listBlock (other.index.toNat - 1) ys).stop ≤ pool.data.length := hsto.inside
      rw [hmoves₁.frame.read_eq hBo
          (hapart _ (by rw [ownBlocks_of_ne_nil hys]; exact List.mem_singleton_self _))
          (show other.index.toNat - 1 ≤ a + other.index.toNat by omega)
          (show a + other.index.toNat + (e - a) ≤
            other.index.toNat - 1 + sclassSize (sclassForLength ys.length) by omega),
        Nat.add_comm a, ← Nat.sub_add_cancel hopos,
        Slice.read_add (show a + (e - a) ≤ ys.length by omega), hsto.elems]
  have hzs : (xs.take index ++ junk ++ xs.drop index).length = xs.length + (e - a) := by
    rw [List.length_append, List.length_append, List.length_take_of_le hindex, hjunk,
      List.length_drop]
    omega
  have hend₁ := hmoves₁.wf.holds.end_le
  rw [hzs] at hend₁
  obtain ⟨data₂, hwrite⟩ : ∃ data₂, Slice.write pool₁.data (index + l₁.index.toNat)
      ((ys.drop a).take (e - a)) = some data₂ :=
    ⟨_, Slice.write_of_le (by rw [hslice_len]; omega)⟩
  have hcopy : Slice.copyWithin pool₁.data (a + other.index.toNat) (e - a)
      (index + l₁.index.toNat) = some data₂ := by
    rw [Slice.copyWithin, if_pos (by omega), hread]
    exact hwrite
  have hlen₂ := Slice.length_of_write hwrite
  have hindex_ne := index_ne_of_apart hw.holds ho hne
    fun B hB B' hB' => hapart B hB B' (List.mem_append_left _ hB')
  refine ⟨l₁, { pool₁ with data := data₂ }, frees₁, ?_, ?_, by
    show data₂.length ≤ _
    rw [hlen₂]
    exact hlen₁⟩
  · rw [hcf]
    simp [len_of_holds hw.holds, hindex, hindex_ne, Nat.not_lt.mpr hrange, hgrowAt, hcopy,
      Nat.add_sub_add_right, show e - a ≤ ys.length by omega]
  by_cases hc : e - a = 0
  · -- an empty range: `copy_within` copies nothing
    have hnil : (ys.drop a).take (e - a) = [] := by rw [hc]; rfl
    have hjnil : junk = [] := List.length_eq_zero_iff.mp (hjunk.trans hc)
    rw [hnil] at hwrite ⊢
    have hdata : data₂ = pool₁.data := List.ext_getElem? fun j => by
      rw [Slice.getElem?_of_write hwrite, if_neg (by simp)]
    subst hdata hjnil
    have hpool : ({ pool₁ with data := pool₁.data } : ListPool T) = pool₁ := rfl
    rw [hpool]
    exact hmoves₁
  · have hne₁ : xs.take index ++ junk ++ xs.drop index ≠ [] := by
      intro h
      rw [h, List.length_nil] at hzs
      omega
    have hold : ∀ i < (xs.take index ++ junk ++ xs.drop index).length,
        pool₁.data[l₁.index.toNat + i]? = (xs.take index ++ junk ++ xs.drop index)[i]? :=
      fun _ hi => hmoves₁.wf.holds.getElem?_elem hi
    refine hmoves₁.trans (Moves.of_elems hmoves₁.wf hne₁ hlen₂ ?_ ?_ ?_)
    · rw [hzs, List.length_append, List.length_append, List.length_take_of_le hindex,
        hslice_len, List.length_drop]
      omega
    · intro j hj
      rw [hzs] at hj
      rw [Slice.getElem?_of_write hwrite, if_neg fun h => hj ⟨by omega, by omega⟩]
    · intro k hk
      rw [hzs] at hk
      rw [Slice.getElem?_of_write hwrite, Slice.getElem?_splice hindex, hslice_len]
      by_cases hmid : index ≤ k ∧ k < index + (e - a)
      · -- the copied range
        rw [if_pos ⟨by omega, by omega⟩, if_neg (by omega), if_pos hmid.2,
          show l₁.index.toNat + k - (index + l₁.index.toNat) = k - index by omega]
      · rw [if_neg fun h => hmid ⟨by omega, by omega⟩, hold _ (by omega),
          Slice.getElem?_splice hindex, hjunk]
        by_cases hki : k < index
        · rw [if_pos hki, if_pos hki]
        · rw [if_neg hki, if_neg hki, if_neg (by omega), if_neg (by omega)]

/-! ### `deep_clone` -/

/-- **`deep_clone` copies the list into a new block** of the class of its length; the clone of the
empty list is the empty list. The list's own block is apart from the block taken, so it is read
unchanged. -/
theorem deepClone_spec (hw : ListWf pool frees l xs)
    (hfit : pool.data.length + sclassSize (sclassForLength xs.length) < 2 ^ 32) :
    ∃ l' pool' frees', l.deepClone pool = some (l', pool') ∧
      Moves pool frees new [] pool' frees' l' xs ∧
      pool'.data.length ≤ pool.data.length + sclassSize (sclassForLength xs.length) := by
  have hw₀ := hw.new_of
  by_cases hxs : xs = []
  · subst hxs
    refine ⟨new, pool, frees, ?_, Moves.refl hw₀, Nat.le_add_right _ _⟩
    simp [deepClone, ListPool.lenOf_of_holds_nil hw.holds]
  · obtain ⟨hpos, hst⟩ := hw.holds.stores hxs
    obtain ⟨b, pool₁, frees₁, halloc, hw₁, hf₁, hstop, hlen₁, htaken⟩ :=
      ListPool.alloc_spec hw.pool (sclassForLength xs.length) hfit
    obtain ⟨data₁, data₂, hset, hwrite, hf, hlen, hs⟩ := fill_writes hxs hst.short hstop
    have hroom := lt_sclassSize hst.short
    have hstop' : b + sclassSize (sclassForLength xs.length) ≤ pool₁.data.length := hstop
    have hB : (listBlock (l.index.toNat - 1) xs).stop ≤ pool.data.length := hst.inside
    have hapart : (listBlock (l.index.toNat - 1) xs).Disjoint ⟨b, sclassForLength xs.length⟩ :=
      htaken.disjoint_of_disjoint hB
        (hw.own_disjoint _ (by rw [ownBlocks_of_ne_nil hxs]; exact List.mem_singleton_self _))
    -- `alloc` and the length write change only the block taken
    have hmem : (⟨b, sclassForLength xs.length⟩ : Block) ∈ [(⟨b, sclassForLength xs.length⟩ : Block)] :=
      List.mem_singleton_self _
    have hf₂ : Frame pool.data data₁ [⟨b, sclassForLength xs.length⟩] :=
      (hf₁.mono fun B hB => absurd hB List.not_mem_nil).trans
        (Frame.of_setAt hset ⟨Nat.le_refl b,
          by show b < b + sclassSize (sclassForLength xs.length); omega⟩ hmem)
        fun B hB => .inl hB
    have hread : Slice.read data₁ l.index.toNat xs.length = xs := by
      rw [hf₂.read_eq hB (fun B hB => by rw [List.mem_singleton.mp hB]; exact hapart)
        (show l.index.toNat - 1 ≤ l.index.toNat by omega)
        (show l.index.toNat + xs.length ≤ l.index.toNat - 1 + sclassSize (sclassForLength xs.length)
          by omega), ← Nat.sub_add_cancel hpos]
      exact hst.elems
    have hcopy : Slice.copyWithin data₁ l.index.toNat xs.length (b + 1) = some data₂ := by
      have hend := hw.holds.end_le
      have hlen₁' := hf₂.length_le
      rw [Slice.copyWithin, if_pos (by omega), hread]
      exact hwrite
    refine ⟨_, _, frees₁, ?_, Moves.of_alloc hw₀ hw₁ hf₁ hstop htaken hf hlen hs rfl,
      by rw [hlen]; exact hlen₁⟩
    simp [deepClone, ListPool.lenOf_of_stores hpos hst, halloc, hset, hcopy]

end EntityList

end Cranelift.Entity
