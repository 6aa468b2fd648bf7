import Cranelift.Entity.ListBlocks

/-!
# What the entity-list operations do

Each operation of `EntityList` acts on one list of a well-formed pool (`ListWf`): it takes the
list `l` holding the elements `xs` to a list `l'` holding what the `Vec` operation gives, and it
writes only the block the list owned and free blocks, and takes its new blocks from these or
from past the end of the data (`Moves`). The other lists of the pool own blocks apart from all
of these, so they keep their elements (`Cranelift.Entity.Holds.frame`).

## Main definitions

* `Cranelift.Entity.Holds`, `Cranelift.Entity.ownBlocks`, `Cranelift.Entity.ListWf`,
  `Cranelift.Entity.Moves`.

## Main results

* `Cranelift.Entity.EntityList.push_spec`, `fromSlice_spec`, `clear_spec`, … — one spec for each
  operation.
-/

namespace Cranelift.Entity

variable {T : Type} [EntityNew T]

/-- `l` is the list `xs` in the data: the empty list with index `0`, or a list whose block, just
before its index, stores `xs`. -/
def Holds (data : List T) (l : EntityList T) (xs : List T) : Prop :=
  (xs = [] ∧ l.index = 0) ∨ (0 < l.index.toNat ∧ Stores data (l.index.toNat - 1) xs)

/-- The blocks a list owns: none for the empty list, its block for another. -/
def ownBlocks (l : EntityList T) (xs : List T) : List Block :=
  if xs.isEmpty then [] else [listBlock (l.index.toNat - 1) xs]

/-- **One list of a well-formed pool**: it holds its elements, the pool is well formed, the free
blocks are apart from each other and from the list's block. -/
structure ListWf (pool : ListPool T) (frees : List Block) (l : EntityList T) (xs : List T) :
    Prop where
  holds : Holds pool.data l xs
  pool : PoolWf pool frees
  frees_disjoint : frees.Pairwise Block.Disjoint
  own_disjoint : ∀ B ∈ ownBlocks l xs, ∀ F ∈ frees, B.Disjoint F

/-- **An operation on one list** took `l`, holding `xs` with the free blocks `frees`, to `l'`,
holding `xs'` with the free blocks `frees'`: it wrote only the list's block and free blocks, and
every block it owns or leaves free was one of these or lies past the old end of the data. -/
structure Moves (pool : ListPool T) (frees : List Block) (l : EntityList T) (xs : List T)
    (pool' : ListPool T) (frees' : List Block) (l' : EntityList T) (xs' : List T) : Prop where
  wf : ListWf pool' frees' l' xs'
  frame : Frame pool.data pool'.data (ownBlocks l xs ++ frees)
  sub : ∀ B ∈ ownBlocks l' xs' ++ frees', B ∈ ownBlocks l xs ++ frees ∨ pool.data.length ≤ B.start

section Holds

variable {data data' : List T} {l : EntityList T} {xs : List T}

omit [EntityNew T] in
lemma ownBlocks_nil (l : EntityList T) : ownBlocks l ([] : List T) = [] := rfl

omit [EntityNew T] in
lemma ownBlocks_of_ne_nil (hxs : xs ≠ []) :
    ownBlocks l xs = [listBlock (l.index.toNat - 1) xs] := by
  rw [ownBlocks, if_neg (by simpa using hxs)]

lemma holds_nil_iff : Holds data l [] ↔ l.index = 0 := by
  constructor
  · rintro (⟨-, h⟩ | ⟨-, hs⟩)
    · exact h
    · exact absurd rfl hs.ne_nil
  · exact fun h => .inl ⟨rfl, h⟩

lemma Holds.stores (h : Holds data l xs) (hxs : xs ≠ []) :
    0 < l.index.toNat ∧ Stores data (l.index.toNat - 1) xs := by
  rcases h with ⟨rfl, -⟩ | h
  · exact absurd rfl hxs
  · exact h

lemma Holds.of_stores (hpos : 0 < l.index.toNat) (hs : Stores data (l.index.toNat - 1) xs) :
    Holds data l xs := .inr ⟨hpos, hs⟩

/-- **A list survives a write to blocks apart from its own.** -/
lemma Holds.frame (h : Holds data l xs) {bs : List Block} (hf : Frame data data' bs)
    (hd : ∀ B ∈ ownBlocks l xs, ∀ B' ∈ bs, B.Disjoint B') : Holds data' l xs := by
  rcases h with h | ⟨hpos, hs⟩
  · exact .inl h
  · refine .inr ⟨hpos, hs.frame hf fun B hB => hd _ ?_ B hB⟩
    rw [ownBlocks_of_ne_nil hs.ne_nil]
    exact List.mem_singleton_self _

/-- The index of a list whose length slot is at `b` in a `u32`-indexed pool. -/
lemma toNat_ofNat_succ {b : ℕ} (h : b + 1 < 2 ^ 32) : (UInt32.ofNat (b + 1)).toNat = b + 1 := by
  rw [UInt32.toNat_ofNat']
  exact Nat.mod_eq_of_lt h

/-- A block inside the data of a well-formed pool starts below the `u32` bound, with room for the
list's index after it. -/
lemma PoolWf.succ_lt_of_stop_le {pool : ListPool T} {frees : List Block} (hw : PoolWf pool frees)
    {b c : ℕ} (hB : (⟨b, c⟩ : Block).stop ≤ pool.data.length) : b + 1 < 2 ^ 32 := by
  have h₂ := Block.start_add_two_le ⟨b, c⟩
  have := hw.small
  dsimp only at h₂
  omega

end Holds

namespace ListPool

variable {pool : ListPool T} {l : EntityList T} {xs : List T}

lemma lenOf_of_holds_nil (h : Holds pool.data l []) : pool.lenOf l = none := by
  rw [lenOf, if_pos (by rw [holds_nil_iff.mp h]; rfl)]

lemma lenOf_of_stores (hpos : 0 < l.index.toNat) (hs : Stores pool.data (l.index.toNat - 1) xs) :
    pool.lenOf l = some xs.length := by
  rw [lenOf, if_neg (Nat.pos_iff_ne_zero.mp hpos), hs.len]

end ListPool

namespace EntityList

variable {pool : ListPool T} {l : EntityList T} {xs : List T}

lemma asMutSlice_of_stores (hpos : 0 < l.index.toNat)
    (hs : Stores pool.data (l.index.toNat - 1) xs) :
    l.asMutSlice pool = some (l.index.toNat, xs.length) := by
  have hin := hs.inside
  have := lt_sclassSize hs.short
  unfold Block.stop listBlock at hin
  dsimp only at hin
  have hle : l.index.toNat + xs.length ≤ pool.data.length := by omega
  simp only [asMutSlice, ListPool.lenOf_of_stores hpos hs, if_pos hle]

/-- `len` reads the length slot of the list's block, `0` for the empty list. -/
lemma len_of_holds (h : Holds pool.data l xs) : l.len pool = xs.length := by
  rcases h with ⟨rfl, h0⟩ | ⟨hpos, hs⟩
  · rw [len, ListPool.lenOf_of_holds_nil (.inl ⟨rfl, h0⟩)]
    rfl
  · rw [len, ListPool.lenOf_of_stores hpos hs]
    rfl

end EntityList

/-! ### Stored lists, pointwise -/

section Pointwise

variable {data : List T} {b : ℕ} {ys : List T}

/-- A block of the class of `ys` inside the data, whose length slot holds `ys.length` and whose
next slots hold `ys`, stores `ys`. -/
lemma Stores.of_getElem? (hne : ys ≠ []) (hshort : ys.length < 2 ^ 32)
    (hlen : data[b]? = some (EntityNew.new ys.length))
    (helems : ∀ k < ys.length, data[b + 1 + k]? = ys[k]?) (hin : (listBlock b ys).stop ≤ data.length) :
    Stores data b ys :=
  ⟨hne, hshort, by rw [hlen, Option.map_some, EntityNew.index_new _ hshort],
    Slice.read_eq_of_getElem? helems, hin⟩

/-- The elements of a stored list, pointwise. -/
lemma Stores.getElem?_elem (hs : Stores data b ys) {k : ℕ} (hk : k < ys.length) :
    data[b + 1 + k]? = ys[k]? :=
  Slice.getElem?_of_read_eq hs.elems hk

/-- The elements of a stored list that a copy of the first `m` slots of its block, the length
slot among them, carried to `b'` (what `realloc` does). -/
lemma Stores.getElem?_of_copy (hs : Stores data b ys) {data' : List T} {b' m : ℕ}
    (hread : Slice.read data' b' m = Slice.read data b m) {k : ℕ} (hk : k < ys.length)
    (hkm : k + 1 < m) : data'[b' + 1 + k]? = ys[k]? := by
  rw [Nat.add_assoc, Slice.getElem?_eq_of_read_eq hread (by omega), ← Nat.add_assoc]
  exact hs.getElem?_elem hk

/-- The elements of a list, pointwise from its index. -/
lemma Holds.getElem?_elem {l : EntityList T} (h : Holds data l ys) {i : ℕ} (hi : i < ys.length) :
    data[l.index.toNat + i]? = ys[i]? := by
  rcases h with ⟨rfl, -⟩ | ⟨hpos, hs⟩
  · exact absurd hi (Nat.not_lt_zero i)
  · rw [← hs.getElem?_elem hi, Nat.sub_add_cancel hpos]

/-- The elements of a list end inside the data. -/
lemma Holds.end_le {l : EntityList T} (h : Holds data l ys) :
    l.index.toNat + ys.length ≤ data.length := by
  rcases h with ⟨rfl, h0⟩ | ⟨hpos, hs⟩
  · rw [h0]
    exact Nat.zero_le _
  · have hin : l.index.toNat - 1 + sclassSize (sclassForLength ys.length) ≤ data.length :=
      hs.inside
    have := lt_sclassSize hs.short
    omega

end Pointwise

/-! ### The three shapes of an operation -/

section Shapes

variable {pool pool₁ : ListPool T} {frees frees₁ : List Block}
  {l : EntityList T} {xs ys : List T}

/-- An operation that changes nothing. -/
lemma Moves.refl (hw : ListWf pool frees l xs) : Moves pool frees l xs pool frees l xs :=
  ⟨hw, Frame.refl _ _, fun _ hB => .inl hB⟩

/-- **An operation that rewrites the list in its own block**, keeping the size class. -/
lemma Moves.in_place (hw : ListWf pool frees l xs) (hxs : xs ≠ []) {data' : List T}
    (hf : Frame pool.data data' [listBlock (l.index.toNat - 1) xs])
    (hlen : data'.length = pool.data.length) (hs : Stores data' (l.index.toNat - 1) ys)
    (hclass : sclassForLength ys.length = sclassForLength xs.length) :
    Moves pool frees l xs { pool with data := data' } frees l ys := by
  obtain ⟨hpos, -⟩ := hw.holds.stores hxs
  have hown : ownBlocks l ys = ownBlocks l xs := by
    rw [ownBlocks_of_ne_nil hs.ne_nil, ownBlocks_of_ne_nil hxs, listBlock, listBlock, hclass]
  have hdis : ∀ B ∈ [listBlock (l.index.toNat - 1) xs], ∀ F ∈ frees, B.Disjoint F := by
    rw [← ownBlocks_of_ne_nil hxs]
    exact hw.own_disjoint
  refine ⟨⟨.of_stores hpos hs, hw.pool.frame hf hdis (hlen ▸ hw.pool.small), hw.frees_disjoint,
    hown ▸ hw.own_disjoint⟩, hf.mono fun B hB => ?_, fun B hB => .inl (hown ▸ hB)⟩
  rw [ownBlocks_of_ne_nil hxs]
  exact List.mem_append_left _ hB

/-- **Two operations in a row**: the second writes only blocks the first could write or that
lie past the old end of the data. -/
lemma Moves.trans {pool₂ : ListPool T} {frees₂ : List Block} {l₁ l₂ : EntityList T}
    {xs₁ xs₂ : List T} (h₁ : Moves pool frees l xs pool₁ frees₁ l₁ xs₁)
    (h₂ : Moves pool₁ frees₁ l₁ xs₁ pool₂ frees₂ l₂ xs₂) :
    Moves pool frees l xs pool₂ frees₂ l₂ xs₂ := by
  refine ⟨h₂.wf, h₁.frame.trans h₂.frame h₁.sub, fun B hB => ?_⟩
  rcases h₂.sub B hB with hold | hfresh
  · exact h₁.sub B hold
  · exact .inr (Nat.le_trans h₁.frame.length_le hfresh)

/-- **An operation that rewrites the elements of a list where they are**: the data keeps its
length and changes only at the list's elements, which now read `ys`, as many as before. -/
lemma Moves.of_elems (hw : ListWf pool frees l xs) (hxs : xs ≠ []) {data' : List T}
    (hlen : data'.length = pool.data.length) (hys : ys.length = xs.length)
    (hout : ∀ j, ¬(l.index.toNat ≤ j ∧ j < l.index.toNat + xs.length) → data'[j]? = pool.data[j]?)
    (helems : ∀ k < xs.length, data'[l.index.toNat + k]? = ys[k]?) :
    Moves pool frees l xs { pool with data := data' } frees l ys := by
  obtain ⟨hpos, hst⟩ := hw.holds.stores hxs
  have hroom := lt_sclassSize hst.short
  have hin : l.index.toNat - 1 + sclassSize (sclassForLength xs.length) ≤ pool.data.length :=
    hst.inside
  have hblock : listBlock (l.index.toNat - 1) ys = listBlock (l.index.toNat - 1) xs := by
    rw [listBlock, listBlock, hys]
  -- the elements lie in the list's block, after its length slot
  have hf : Frame pool.data data' [listBlock (l.index.toNat - 1) xs] := by
    refine ⟨Nat.le_of_eq hlen.symm, fun j _ hj => hout j fun hmem => ?_⟩
    refine hj _ (List.mem_singleton_self _) ⟨by show l.index.toNat - 1 ≤ j; omega, ?_⟩
    show j < l.index.toNat - 1 + sclassSize (sclassForLength xs.length)
    omega
  have hs : Stores data' (l.index.toNat - 1) ys := by
    have hne : ys ≠ [] := by
      rintro rfl
      exact hxs (List.length_eq_zero_iff.mp hys.symm)
    refine ⟨hne, hys ▸ hst.short, ?_, ?_, ?_⟩
    · rw [hout _ (by omega), hst.len, hys]
    · refine Slice.read_eq_of_getElem? fun k hk => ?_
      rw [Nat.sub_add_cancel hpos]
      exact helems k (hys ▸ hk)
    · rw [hblock, hlen]
      exact hst.inside
  exact Moves.in_place hw hxs hf hlen hs (by rw [hys])

/-- **An operation that gives the empty list its first block**, taken by `alloc`. -/
lemma Moves.of_alloc (hw : ListWf pool frees l []) {b : ℕ} {c : ℕ}
    (hw₁ : PoolWf pool₁ frees₁) (hf₁ : Frame pool.data pool₁.data [])
    (hstop : (⟨b, c⟩ : Block).stop ≤ pool₁.data.length)
    (htaken : TakenFrom pool.data.length frees ⟨b, c⟩ frees₁) {data' : List T}
    (hf : Frame pool₁.data data' [⟨b, c⟩]) (hlen : data'.length = pool₁.data.length)
    (hs : Stores data' b ys) (hclass : sclassForLength ys.length = c) :
    Moves pool frees l [] { pool₁ with data := data' } frees₁ ⟨UInt32.ofNat (b + 1)⟩ ys := by
  have hsmall := hw₁.small
  have hb : b + 1 < 2 ^ 32 := by
    have := Block.start_add_two_le ⟨b, c⟩
    dsimp only at this
    omega
  have hidx : (UInt32.ofNat (b + 1)).toNat - 1 = b := by rw [toNat_ofNat_succ hb]; rfl
  have hown : ownBlocks ⟨UInt32.ofNat (b + 1)⟩ ys = [⟨b, c⟩] := by
    rw [ownBlocks_of_ne_nil hs.ne_nil, listBlock]
    simp only [hidx, hclass]
  have hdis := htaken.disjoint hw.frees_disjoint hw.pool.inside
  have hdis' : ∀ B ∈ [(⟨b, c⟩ : Block)], ∀ F ∈ frees₁, B.Disjoint F := by
    intro B hB
    rw [List.mem_singleton.mp hB]
    exact hdis
  refine ⟨⟨.of_stores (by rw [toNat_ofNat_succ hb]; omega) (by rwa [hidx]),
    hw₁.frame hf hdis' (hlen ▸ hsmall), htaken.pairwise hw.frees_disjoint, hown ▸ hdis'⟩,
    ?_, fun B hB => ?_⟩
  · refine (hf₁.mono fun B hB => absurd hB List.not_mem_nil).trans hf fun B hB => ?_
    rw [List.mem_singleton.mp hB]
    rcases htaken.mem_or_fresh with hin | hfresh
    · exact .inl (List.mem_append_right _ hin)
    · exact .inr hfresh
  · rw [hown] at hB
    rcases List.mem_append.mp hB with hB | hB
    · rw [List.mem_singleton.mp hB]
      rcases htaken.mem_or_fresh with hin | hfresh
      · exact .inl (List.mem_append_right _ hin)
      · exact .inr hfresh
    · exact .inl (List.mem_append_right _ (htaken.subset B hB))

/-- **An operation that moves the list to a block of another size class**, by `realloc`, which
frees the old block. -/
lemma Moves.of_realloc (hw : ListWf pool frees l xs) (hxs : xs ≠ []) {b : ℕ} {c : ℕ}
    (hw₁ : PoolWf pool₁ (listBlock (l.index.toNat - 1) xs :: frees₁))
    (hf₁ : Frame pool.data pool₁.data (listBlock (l.index.toNat - 1) xs :: frees))
    (hstop : (⟨b, c⟩ : Block).stop ≤ pool₁.data.length)
    (htaken : TakenFrom pool.data.length frees ⟨b, c⟩ frees₁)
    (happart : (⟨b, c⟩ : Block).Disjoint (listBlock (l.index.toNat - 1) xs)) {data' : List T}
    (hf : Frame pool₁.data data' [⟨b, c⟩]) (hlen : data'.length = pool₁.data.length)
    (hs : Stores data' b ys) (hclass : sclassForLength ys.length = c) :
    Moves pool frees l xs { pool₁ with data := data' }
      (listBlock (l.index.toNat - 1) xs :: frees₁) ⟨UInt32.ofNat (b + 1)⟩ ys := by
  set B := listBlock (l.index.toNat - 1) xs
  have hsmall := hw₁.small
  have hb : b + 1 < 2 ^ 32 := by
    have := Block.start_add_two_le ⟨b, c⟩
    dsimp only at this
    omega
  have hidx : (UInt32.ofNat (b + 1)).toNat - 1 = b := by rw [toNat_ofNat_succ hb]; rfl
  have hown : ownBlocks ⟨UInt32.ofNat (b + 1)⟩ ys = [⟨b, c⟩] := by
    rw [ownBlocks_of_ne_nil hs.ne_nil, listBlock]
    simp only [hidx, hclass]
  have hownB : ownBlocks l xs = [B] := ownBlocks_of_ne_nil hxs
  have hBfrees : ∀ F ∈ frees, B.Disjoint F := hw.own_disjoint B (by rw [hownB]; exact List.mem_singleton_self _)
  have hdis := htaken.disjoint hw.frees_disjoint hw.pool.inside
  have hdis' : ∀ B' ∈ [(⟨b, c⟩ : Block)], ∀ F ∈ B :: frees₁, B'.Disjoint F := by
    intro B' hB' F hF
    rw [List.mem_singleton.mp hB']
    rcases List.mem_cons.mp hF with rfl | hF
    · exact happart
    · exact hdis F hF
  have hpair : (B :: frees₁).Pairwise Block.Disjoint :=
    List.Pairwise.cons (fun F hF => hBfrees F (htaken.subset F hF)) (htaken.pairwise hw.frees_disjoint)
  refine ⟨⟨.of_stores (by rw [toNat_ofNat_succ hb]; omega) (by rwa [hidx]),
    hw₁.frame hf hdis' (hlen ▸ hsmall), hpair, hown ▸ hdis'⟩, ?_, fun B' hB' => ?_⟩
  · rw [hownB]
    refine hf₁.trans hf fun B' hB' => ?_
    rw [List.mem_singleton.mp hB']
    rcases htaken.mem_or_fresh with hin | hfresh
    · exact .inl (List.mem_cons_of_mem _ hin)
    · exact .inr hfresh
  · rw [hown, hownB] at *
    rcases List.mem_append.mp hB' with hB' | hB'
    · rw [List.mem_singleton.mp hB']
      rcases htaken.mem_or_fresh with hin | hfresh
      · exact .inl (List.mem_cons_of_mem _ hin)
      · exact .inr hfresh
    · rcases List.mem_cons.mp hB' with rfl | hB'
      · exact .inl List.mem_cons_self
      · exact .inl (List.mem_cons_of_mem _ (htaken.subset B' hB'))

/-- A stored list is shorter than the data's `u32` bound, with room for its length slot. -/
lemma ListWf.length_lt (hw : ListWf pool frees l xs) (hxs : xs ≠ []) : xs.length + 1 < 2 ^ 32 := by
  obtain ⟨-, hst⟩ := hw.holds.stores hxs
  have hin : l.index.toNat - 1 + sclassSize (sclassForLength xs.length) ≤ pool.data.length :=
    hst.inside
  have := hw.pool.small
  have := lt_sclassSize hst.short
  omega

end Shapes

/-! ### `push` -/

namespace EntityList

variable {pool : ListPool T} {frees : List Block} {l : EntityList T} {xs : List T}

/-- The two writes that end `push`: the element after the elements, then the new length. -/
lemma push_writes {data : List T} {b : ℕ} (x : T)
    (helems : ∀ k < xs.length, data[b + 1 + k]? = xs[k]?)
    (hin : (listBlock b (xs ++ [x])).stop ≤ data.length) (hshort : xs.length + 1 < 2 ^ 32) :
    ∃ data₁ data₂, Slice.setAt data (b + (xs.length + 1)) x = some data₁ ∧
      Slice.setAt data₁ b (EntityNew.new (xs.length + 1)) = some data₂ ∧
      Frame data data₂ [listBlock b (xs ++ [x])] ∧ data₂.length = data.length ∧
      Stores data₂ b (xs ++ [x]) := by
  have hlen : (xs ++ [x]).length = xs.length + 1 := by simp
  have hroom := lt_sclassSize (hlen ▸ hshort)
  unfold Block.stop listBlock at hin
  dsimp only at hin
  rw [hlen] at hin hroom
  have hset₁ : Slice.setAt data (b + (xs.length + 1)) x = some (data.set (b + (xs.length + 1)) x) :=
    Slice.setAt_of_lt (by omega)
  have hset₂ : Slice.setAt (data.set (b + (xs.length + 1)) x) b (EntityNew.new (xs.length + 1)) =
      some ((data.set (b + (xs.length + 1)) x).set b (EntityNew.new (xs.length + 1))) :=
    Slice.setAt_of_lt (by simp; omega)
  have hmem : listBlock b (xs ++ [x]) ∈ [listBlock b (xs ++ [x])] := List.mem_singleton_self _
  refine ⟨_, _, hset₁, hset₂, ?_, by simp, ?_⟩
  · refine (Frame.of_setAt hset₁ ?_ hmem).trans (Frame.of_setAt hset₂ ?_ hmem) fun B hB => .inl hB
    · show b ≤ _ ∧ _ < b + sclassSize (sclassForLength (xs ++ [x]).length)
      rw [hlen]
      omega
    · show b ≤ b ∧ b < b + sclassSize (sclassForLength (xs ++ [x]).length)
      rw [hlen]
      omega
  · refine Stores.of_getElem? (by simp) (hlen ▸ hshort) ?_ (fun k hk => ?_) ?_
    · rw [hlen, List.getElem?_set_self (by simp; omega)]
    · rw [List.getElem?_set_ne (by omega), List.getElem?_set]
      rw [hlen] at hk
      by_cases hkl : k = xs.length
      · subst hkl
        rw [if_pos (by omega), if_pos (by omega), List.getElem?_concat_length]
      · rw [if_neg (by omega), helems k (by omega), List.getElem?_append_left (by omega)]
    · show b + sclassSize (sclassForLength (xs ++ [x]).length) ≤ _
      simp only [List.length_set, hlen]
      exact hin


/-- The write that ends `remove_last`, `truncate` and `grow`: the new length into the length slot
of a block whose next slots hold the elements. -/
lemma setLength_writes {data : List T} {b : ℕ} {ys : List T} (hne : ys ≠ [])
    (hshort : ys.length < 2 ^ 32) (helems : ∀ k < ys.length, data[b + 1 + k]? = ys[k]?)
    (hin : (listBlock b ys).stop ≤ data.length) :
    ∃ data', Slice.setAt data b (EntityNew.new ys.length) = some data' ∧
      Frame data data' [listBlock b ys] ∧ data'.length = data.length ∧ Stores data' b ys := by
  have hroom := lt_sclassSize hshort
  have hin' : b + sclassSize (sclassForLength ys.length) ≤ data.length := hin
  have hset : Slice.setAt data b (EntityNew.new ys.length) =
      some (data.set b (EntityNew.new ys.length)) := Slice.setAt_of_lt (by omega)
  refine ⟨_, hset, Frame.of_setAt hset
    ⟨Nat.le_refl b, by show b < b + sclassSize (sclassForLength ys.length); omega⟩
    (List.mem_singleton_self _), by simp, ?_⟩
  refine Stores.of_getElem? hne hshort (List.getElem?_set_self (by omega)) (fun k hk => ?_) ?_
  · rw [List.getElem?_set_ne (by omega), helems k hk]
  · show b + _ ≤ (data.set b _).length
    rw [List.length_set]
    exact hin'

/-- The empty list holds no elements. -/
lemma holds_new (data : List T) : Holds data (new : EntityList T) [] := .inl ⟨rfl, rfl⟩

variable [ReservedValue T]

omit [ReservedValue T] in
/-- **`clear` frees the list's block** and leaves the empty list. -/
theorem clear_spec (hw : ListWf pool frees l xs) :
    ∃ pool' frees', l.clear pool = some (new, pool') ∧ Moves pool frees l xs pool' frees' new [] ∧
      pool'.data.length = pool.data.length := by
  by_cases hxs : xs = []
  · subst hxs
    have hidx : l.index = 0 := holds_nil_iff.mp hw.holds
    refine ⟨pool, frees, ?_, ⟨⟨holds_new _, hw.pool, hw.frees_disjoint, fun B hB => absurd hB
      List.not_mem_nil⟩, Frame.refl _ _, fun B hB => .inl hB⟩, rfl⟩
    simp [clear, ListPool.lenOf_of_holds_nil hw.holds, hidx]
  · obtain ⟨hpos, hst⟩ := hw.holds.stores hxs
    have hown : ownBlocks l xs = [listBlock (l.index.toNat - 1) xs] := ownBlocks_of_ne_nil hxs
    have hBfrees := hw.own_disjoint _ (by rw [hown]; exact List.mem_singleton_self _)
    obtain ⟨pool', hfree, hw', hf, hlen⟩ := ListPool.freeBlock_spec hw.pool hst.inside hBfrees
    have hfree' : pool.freeBlock (l.index.toNat - 1) (sclassForLength xs.length) = some pool' :=
      hfree
    refine ⟨pool', _, by simp [clear, ListPool.lenOf_of_stores hpos hst, hfree'],
      ⟨⟨holds_new _, hw', .cons hBfrees hw.frees_disjoint, fun B hB => absurd hB List.not_mem_nil⟩,
        hf.mono fun B hB => ?_, fun B hB => .inl ?_⟩, hlen⟩
    · rw [hown]
      exact List.mem_append_left _ hB
    · rw [hown]
      simpa [ownBlocks_nil] using hB

omit [ReservedValue T] in
/-- The two writes that fill a block: the length into its first slot, then the elements. -/
lemma fill_writes {data : List T} {b : ℕ} {ys : List T} (hne : ys ≠ []) (hshort : ys.length < 2 ^ 32)
    (hstop : (listBlock b ys).stop ≤ data.length) :
    ∃ data₁ data₂, Slice.setAt data b (EntityNew.new ys.length) = some data₁ ∧
      Slice.write data₁ (b + 1) ys = some data₂ ∧ Frame data data₂ [listBlock b ys] ∧
      data₂.length = data.length ∧ Stores data₂ b ys := by
  have hroom := lt_sclassSize hshort
  have hstop' : b + sclassSize (sclassForLength ys.length) ≤ data.length := hstop
  have hmem : listBlock b ys ∈ [listBlock b ys] := List.mem_singleton_self _
  have hset : Slice.setAt data b (EntityNew.new ys.length) =
      some (data.set b (EntityNew.new ys.length)) := Slice.setAt_of_lt (by omega)
  obtain ⟨data₂, hwrite⟩ : ∃ data₂, Slice.write (data.set b (EntityNew.new ys.length)) (b + 1) ys =
      some data₂ := ⟨_, Slice.write_of_le (by rw [List.length_set]; omega)⟩
  have hf : Frame data data₂ [listBlock b ys] :=
    (Frame.of_setAt hset
      ⟨Nat.le_refl b, by show b < b + sclassSize (sclassForLength ys.length); omega⟩ hmem).trans
      (Frame.of_write hwrite ⟨by show b ≤ b + 1; omega,
        by show b + 1 + ys.length ≤ b + sclassSize (sclassForLength ys.length); omega⟩ hmem)
      fun B hB => .inl hB
  have hlen : data₂.length = data.length := by
    rw [Slice.length_of_write hwrite, List.length_set]
  refine ⟨_, data₂, hset, hwrite, hf, hlen, ?_⟩
  refine Stores.of_getElem? hne hshort ?_ (fun k hk => ?_) (by rw [hlen]; exact hstop)
  · rw [Slice.getElem?_of_write hwrite, if_neg (by omega), List.getElem?_set_self (by omega)]
  · rw [Slice.getElem?_of_write hwrite, if_pos ⟨by omega, by omega⟩,
      show b + 1 + k - (b + 1) = k by omega]

/-- **`from_slice` stores the elements in a new block**, of the size class of their number. -/
theorem fromSlice_spec (hw : ListWf pool frees new []) (slice : List T) (hshort : slice.length < 2 ^ 32)
    (hfit : pool.data.length + sclassSize (sclassForLength slice.length) < 2 ^ 32) :
    ∃ l' pool' frees', fromSlice slice pool = some (l', pool') ∧
      Moves pool frees new [] pool' frees' l' slice ∧
      pool'.data.length ≤ pool.data.length + sclassSize (sclassForLength slice.length) := by
  by_cases hnil : slice = []
  · subst hnil
    exact ⟨new, pool, frees, rfl, Moves.refl hw, Nat.le_add_right _ _⟩
  · obtain ⟨b, pool₁, frees₁, halloc, hw₁, hf₁, hstop, hlen₁, htaken⟩ :=
      ListPool.alloc_spec hw.pool (sclassForLength slice.length) hfit
    obtain ⟨data₁, data₂, hset, hwrite, hf, hlen, hs⟩ := fill_writes hnil hshort hstop
    refine ⟨_, _, frees₁, ?_, Moves.of_alloc hw hw₁ hf₁ hstop htaken hf hlen hs rfl,
      by rw [hlen]; exact hlen₁⟩
    simp [fromSlice, List.length_eq_zero_iff.not.mpr hnil, halloc, hset, hwrite]

/-- **`push` appends the element**: a first push takes a block of class `0`; a push that reaches
the minimum length of the next size class moves the list there; any other push writes in place.
It returns the old length. -/
theorem push_spec (hw : ListWf pool frees l xs) (x : T)
    (hfit : pool.data.length + sclassSize (sclassForLength (xs.length + 1)) < 2 ^ 32) :
    ∃ l' pool' frees', l.push x pool = some (xs.length, l', pool') ∧
      Moves pool frees l xs pool' frees' l' (xs ++ [x]) ∧
      pool'.data.length ≤ pool.data.length + sclassSize (sclassForLength (xs.length + 1)) := by
  by_cases hxs : xs = []
  · -- the first push takes a block of class `0`
    subst hxs
    have hidx : l.index = 0 := holds_nil_iff.mp hw.holds
    obtain ⟨b, pool₁, frees₁, halloc, hw₁, hf₁, hstop, hlen₁, htaken⟩ :=
      ListPool.alloc_spec hw.pool (sclassForLength 1) hfit
    have helems : ∀ k < ([] : List T).length, pool₁.data[b + 1 + k]? = ([] : List T)[k]? :=
      fun k hk => absurd hk (Nat.not_lt_zero k)
    obtain ⟨data₁, data₂, hset₁, hset₂, hf, hlen, hs⟩ :=
      push_writes x helems hstop (by simp)
    refine ⟨_, _, frees₁, ?_, Moves.of_alloc hw hw₁ hf₁ hstop htaken hf hlen hs (by simp),
      by rw [hlen]; exact hlen₁⟩
    -- the first push writes the length before the element: the same two writes
    simp only [List.length_nil, Nat.zero_add] at hset₁ hset₂
    have hb := Slice.lt_of_setAt hset₁
    rw [Slice.setAt_of_lt hb, Option.some.injEq] at hset₁
    subst hset₁
    rw [Slice.setAt_of_lt (by simp; omega), Option.some.injEq] at hset₂
    have hfirst : Slice.setAt pool₁.data b (EntityNew.new 1) =
        some (pool₁.data.set b (EntityNew.new 1)) := Slice.setAt_of_lt (by omega)
    have hsecond : Slice.setAt (pool₁.data.set b (EntityNew.new 1)) (b + 1) x = some data₂ := by
      rw [Slice.setAt_of_lt (by simp; omega), ← hset₂, List.set_comm _ _ (by omega)]
    simp [push, ListPool.lenOf_of_holds_nil hw.holds, hidx, halloc, hfirst, hsecond]
  · obtain ⟨hpos, hst⟩ := hw.holds.stores hxs
    have hlenOf := ListPool.lenOf_of_stores hpos hst
    have hshort : xs.length + 1 < 2 ^ 32 := by
      have := hst.inside
      have := hw.pool.small
      have := lt_sclassSize hst.short
      unfold Block.stop listBlock at *
      dsimp only at *
      omega
    have hidx : l.index.toNat ≠ 0 := Nat.pos_iff_ne_zero.mp hpos
    by_cases hmin : isSclassMinLength (xs.length + 1)
    · -- the list moves to the next size class
      have hclass : sclassForLength (xs.length + 1) = sclassForLength xs.length + 1 := by
        rw [sclassForLength_succ hshort, if_pos hmin]
      have hn : xs.length + 1 ≤ sclassSize (sclassForLength xs.length) := lt_sclassSize hst.short
      have hn' : xs.length + 1 ≤ sclassSize (sclassForLength xs.length + 1) := by
        rw [← hclass]
        exact Nat.le_of_lt (lt_sclassSize hshort)
      have hown : ownBlocks l xs = [listBlock (l.index.toNat - 1) xs] := ownBlocks_of_ne_nil hxs
      obtain ⟨b', pool₁, frees₁, hre, hw₁, hf₁, hstop, hlen₁, htaken, happart, hread⟩ :=
        ListPool.realloc_spec hw.pool hw.frees_disjoint hst.inside
          (hw.own_disjoint _ (by rw [hown]; exact List.mem_singleton_self _)) hn hn'
          (by rw [← hclass]; exact hfit)
      -- the copied slots hold the old length and the elements
      have helems : ∀ k < xs.length, pool₁.data[b' + 1 + k]? = xs[k]? := fun k hk =>
        hst.getElem?_of_copy hread hk (by omega)
      have hin : (listBlock b' (xs ++ [x])).stop ≤ pool₁.data.length := by
        rw [show listBlock b' (xs ++ [x]) = ⟨b', sclassForLength xs.length + 1⟩ by
          simp [listBlock, hclass]]
        exact hstop
      obtain ⟨data₁, data₂, hset₁, hset₂, hf, hlen, hs⟩ := push_writes x helems hin hshort
      have hre' : pool.realloc (l.index.toNat - 1) (sclassForLength xs.length)
          (sclassForLength xs.length + 1) (xs.length + 1) = some (b', pool₁) := hre
      refine ⟨_, _, _, ?_, Moves.of_realloc hw hxs hw₁ hf₁ hstop htaken happart
        (by simpa [listBlock, hclass] using hf) hlen hs (by simp [hclass]), ?_⟩
      · simp [push, hlenOf, hmin, hre', hset₁, hset₂]
      · rw [hlen, hclass]
        exact hlen₁
    · -- the list stays in its block
      have hclass : sclassForLength (xs.length + 1) = sclassForLength xs.length := by
        rw [sclassForLength_succ hshort, if_neg hmin]
      have hblock : listBlock (l.index.toNat - 1) (xs ++ [x]) = listBlock (l.index.toNat - 1) xs := by
        simp [listBlock, hclass]
      obtain ⟨data₁, data₂, hset₁, hset₂, hf, hlen, hs⟩ :=
        push_writes x (fun k hk => hst.getElem?_elem hk) (by rw [hblock]; exact hst.inside) hshort
      refine ⟨_, _, _, ?_, Moves.in_place hw hxs (hblock ▸ hf) hlen hs (by simp [hclass]),
        by rw [hlen]; exact Nat.le_add_right _ _⟩
      simp [push, hlenOf, hmin, hset₁, hset₂]

/-! ### Shrinking: `remove_last` and `truncate` -/

section Shrink

omit [ReservedValue T] in
/-- **Shrinking in place** to the first `m` elements: only the length slot changes. -/
lemma shrink_in_place (hw : ListWf pool frees l xs) (hxs : xs ≠ []) {m : ℕ} (hm0 : 0 < m)
    (hm : m < xs.length) (hclass : sclassForLength m = sclassForLength xs.length) :
    ∃ data₂, Slice.setAt pool.data (l.index.toNat - 1) (EntityNew.new m) = some data₂ ∧
      Moves pool frees l xs { pool with data := data₂ } frees l (xs.take m) ∧
      data₂.length = pool.data.length := by
  obtain ⟨hpos, hst⟩ := hw.holds.stores hxs
  have hlen : (xs.take m).length = m := List.length_take_of_le (Nat.le_of_lt hm)
  have hne : xs.take m ≠ [] := by
    intro h
    rw [h, List.length_nil] at hlen
    omega
  have hblock : listBlock (l.index.toNat - 1) (xs.take m) = listBlock (l.index.toNat - 1) xs := by
    simp only [listBlock, hlen, hclass]
  have helems : ∀ k < (xs.take m).length, pool.data[l.index.toNat - 1 + 1 + k]? = (xs.take m)[k]? := by
    intro k hk
    rw [hlen] at hk
    rw [hst.getElem?_elem (by omega), List.getElem?_take, if_pos hk]
  obtain ⟨data₂, hset, hf, hlen₂, hs⟩ :=
    setLength_writes hne (by rw [hlen]; exact Nat.lt_trans hm hst.short) helems (hblock ▸ hst.inside)
  rw [hlen] at hset
  exact ⟨data₂, hset, Moves.in_place hw hxs (hblock ▸ hf) hlen₂ hs (by rw [hlen, hclass]), hlen₂⟩

/-- **Shrinking by `realloc`** to the first `m` elements: the length slot and the `m` elements
move to a block of the smaller class, and the old block is freed. -/
lemma shrink_realloc (hw : ListWf pool frees l xs) (hxs : xs ≠ []) {m : ℕ} (hm0 : 0 < m)
    (hm : m < xs.length) (hfit : pool.data.length + sclassSize (sclassForLength m) < 2 ^ 32) :
    ∃ b' pool₁ data₂ frees₁, pool.realloc (l.index.toNat - 1) (sclassForLength xs.length)
        (sclassForLength m) (m + 1) = some (b', pool₁) ∧
      Slice.setAt pool₁.data b' (EntityNew.new m) = some data₂ ∧
      Moves pool frees l xs { pool₁ with data := data₂ } (listBlock (l.index.toNat - 1) xs :: frees₁)
        ⟨UInt32.ofNat (b' + 1)⟩ (xs.take m) ∧
      data₂.length ≤ pool.data.length + sclassSize (sclassForLength m) := by
  obtain ⟨hpos, hst⟩ := hw.holds.stores hxs
  have hshort : m < 2 ^ 32 := Nat.lt_trans hm hst.short
  have hn : m + 1 ≤ sclassSize (sclassForLength xs.length) :=
    Nat.le_trans (Nat.succ_le_of_lt hm) (Nat.le_of_lt (lt_sclassSize hst.short))
  have hn' : m + 1 ≤ sclassSize (sclassForLength m) := lt_sclassSize hshort
  have hown : ownBlocks l xs = [listBlock (l.index.toNat - 1) xs] := ownBlocks_of_ne_nil hxs
  obtain ⟨b', pool₁, frees₁, hre, hw₁, hf₁, hstop, hlen₁, htaken, happart, hread⟩ :=
    ListPool.realloc_spec hw.pool hw.frees_disjoint hst.inside
      (hw.own_disjoint _ (by rw [hown]; exact List.mem_singleton_self _)) hn hn' hfit
  have hlen : (xs.take m).length = m := List.length_take_of_le (Nat.le_of_lt hm)
  have hne : xs.take m ≠ [] := by
    intro h
    rw [h, List.length_nil] at hlen
    omega
  -- the copied slots hold the old length and the first `m` elements
  have helems : ∀ k < (xs.take m).length, pool₁.data[b' + 1 + k]? = (xs.take m)[k]? := by
    intro k hk
    rw [hlen] at hk
    rw [hst.getElem?_of_copy hread (by omega) (by omega), List.getElem?_take, if_pos hk]
  have hblock : listBlock b' (xs.take m) = ⟨b', sclassForLength m⟩ := by simp only [listBlock, hlen]
  obtain ⟨data₂, hset, hf, hlen₂, hs⟩ :=
    setLength_writes hne (by rw [hlen]; exact hshort) helems (hblock ▸ hstop)
  rw [hlen] at hset
  exact ⟨b', pool₁, data₂, frees₁, hre, hset,
    Moves.of_realloc hw hxs hw₁ hf₁ hstop htaken happart (hblock ▸ hf) hlen₂ hs (by rw [hlen]),
    by rw [hlen₂]; exact hlen₁⟩

/-- **`remove_last` drops the last element**: the last one clears the list, a length that leaves
the minimum of its size class moves the list to the smaller class, any other shrinks in place. -/
theorem removeLast_spec (hw : ListWf pool frees l xs) (hxs : xs ≠ [])
    (hfit : pool.data.length + sclassSize (sclassForLength (xs.length - 1)) < 2 ^ 32) :
    ∃ l' pool' frees', l.removeLast xs.length pool = some (l', pool') ∧
      Moves pool frees l xs pool' frees' l' xs.dropLast ∧
      pool'.data.length ≤ pool.data.length + sclassSize (sclassForLength (xs.length - 1)) := by
  have hpos : 0 < xs.length := List.length_pos_iff.mpr hxs
  by_cases h1 : xs.length = 1
  · -- the last element: `clear`
    obtain ⟨pool', frees', hclear, hmoves, hlen⟩ := clear_spec hw
    have hdrop : xs.dropLast = [] := by
      rw [List.dropLast_eq_take, h1]
      rfl
    rw [hdrop]
    exact ⟨new, pool', frees', by rw [removeLast, if_pos h1, hclear], hmoves,
      by rw [hlen]; exact Nat.le_add_right _ _⟩
  · obtain ⟨hidx, -⟩ := hw.holds.stores hxs
    have hm0 : 0 < xs.length - 1 := by omega
    have hm : xs.length - 1 < xs.length := by omega
    have hshort := hw.length_lt hxs
    have hsucc := sclassForLength_succ (show xs.length - 1 + 1 < 2 ^ 32 by omega)
    rw [Nat.sub_add_cancel hpos] at hsucc
    rw [List.dropLast_eq_take]
    by_cases hmin : isSclassMinLength xs.length
    · -- the length leaves the minimum of its class
      rw [if_pos hmin] at hsucc
      obtain ⟨b', pool₁, data₂, frees₁, hre, hset, hmoves, hlen₂⟩ := shrink_realloc hw hxs hm0 hm hfit
      have hre' : pool.realloc (l.index.toNat - 1) (sclassForLength xs.length)
          (sclassForLength xs.length - 1) xs.length = some (b', pool₁) := by
        have hto : sclassForLength xs.length - 1 = sclassForLength (xs.length - 1) := by
          rw [hsucc, Nat.add_sub_cancel]
        rw [hto]
        rwa [Nat.sub_add_cancel hpos] at hre
      refine ⟨_, _, _, ?_, hmoves, hlen₂⟩
      simp [removeLast, h1, Nat.pos_iff_ne_zero.mp hidx, hmin, hre', hset]
    · rw [if_neg hmin] at hsucc
      obtain ⟨data₂, hset, hmoves, hlen₂⟩ := shrink_in_place hw hxs hm0 hm hsucc.symm
      refine ⟨_, _, _, ?_, hmoves, by rw [hlen₂]; exact Nat.le_add_right _ _⟩
      simp [removeLast, h1, Nat.pos_iff_ne_zero.mp hidx, hmin, hset]

/-- **`truncate` keeps the first `new_len` elements**: `0` clears the list, a length that is
not shorter changes nothing, and otherwise the list moves to the size class of the new length
if that class is another. -/
theorem truncate_spec (hw : ListWf pool frees l xs) (newLen : ℕ)
    (hfit : pool.data.length + sclassSize (sclassForLength newLen) < 2 ^ 32) :
    ∃ l' pool' frees', l.truncate newLen pool = some (l', pool') ∧
      Moves pool frees l xs pool' frees' l' (xs.take newLen) ∧
      pool'.data.length ≤ pool.data.length + sclassSize (sclassForLength newLen) := by
  by_cases h0 : newLen = 0
  · obtain ⟨pool', frees', hclear, hmoves, hlen⟩ := clear_spec hw
    subst h0
    exact ⟨new, pool', frees', by rw [truncate, if_pos rfl, hclear], hmoves,
      by rw [hlen]; exact Nat.le_add_right _ _⟩
  · by_cases hxs : xs = []
    · subst hxs
      refine ⟨l, pool, frees, ?_, by simpa using Moves.refl hw, Nat.le_add_right _ _⟩
      simp [truncate, h0, ListPool.lenOf_of_holds_nil hw.holds]
    · obtain ⟨hpos, hst⟩ := hw.holds.stores hxs
      have hlenOf := ListPool.lenOf_of_stores hpos hst
      by_cases hle : xs.length ≤ newLen
      · refine ⟨l, pool, frees, ?_, by simpa [List.take_of_length_le hle] using Moves.refl hw,
          Nat.le_add_right _ _⟩
        simp [truncate, h0, hlenOf, hle]
      · have hm : newLen < xs.length := Nat.lt_of_not_le hle
        have hm0 : 0 < newLen := Nat.pos_of_ne_zero h0
        by_cases hclass : sclassForLength xs.length = sclassForLength newLen
        · obtain ⟨data₂, hset, hmoves, hlen₂⟩ := shrink_in_place hw hxs hm0 hm hclass.symm
          refine ⟨_, _, _, ?_, hmoves, by rw [hlen₂]; exact Nat.le_add_right _ _⟩
          simp [truncate, h0, hlenOf, hle, hclass, hset]
        · obtain ⟨b', pool₁, data₂, frees₁, hre, hset, hmoves, hlen₂⟩ :=
            shrink_realloc hw hxs hm0 hm hfit
          refine ⟨_, _, _, ?_, hmoves, hlen₂⟩
          simp [truncate, h0, hlenOf, hle, hclass, hre, hset]

end Shrink

end EntityList

end Cranelift.Entity
