import Cranelift.Entity.List

/-!
# The blocks of a list pool

What a well-formed `ListPool` looks like, and what `alloc`, `free` and `realloc` do to it. The
pool's data is cut into blocks: each non-empty list owns one, of the size class of its length,
holding its length and its elements (`Stores`); the other blocks are on the free lists, each list
threaded through the link slots of its blocks (`Chain`). The free blocks are kept as one list
`frees`, in which the blocks of each size class come in the order of their free list
(`freeOf`). `PoolWf` states that the heads in `pool.free` start these chains.

A write to the data is described by the blocks it may change (`Frame`): everything outside them
and below the old end of the data stays. A stored list or a free list whose blocks are disjoint
from the changed ones survives the write (`Stores.frame`, `Chain.frame`); this is how an
operation on one list leaves every other list alone.

## Main definitions

* `Cranelift.Entity.Block`, `Block.Disjoint`, `Cranelift.Entity.Frame`.
* `Cranelift.Entity.Stores`, `Cranelift.Entity.Chain`, `Cranelift.Entity.PoolWf`.

## Main results

* `Cranelift.Entity.ListPool.alloc_spec` — `alloc` takes the head of the free list of the class,
  or appends a fresh block.
* `Cranelift.Entity.ListPool.freeBlock_spec` — `free` pushes the block on its free list.
* `Cranelift.Entity.ListPool.realloc_spec` — `realloc` copies the prefix to a block of the new
  class and frees the old one.
-/

namespace Cranelift.Entity

/-- A block of the pool's data: its first index and its size class. -/
structure Block where
  start : ℕ
  sclass : ℕ
deriving DecidableEq

namespace Block

/-- One past the block's last index. -/
def stop (B : Block) : ℕ := B.start + sclassSize B.sclass

/-- The index `j` lies in the block. -/
def Mem (B : Block) (j : ℕ) : Prop := B.start ≤ j ∧ j < B.stop

/-- Two blocks share no index. -/
def Disjoint (B B' : Block) : Prop := B.stop ≤ B'.start ∨ B'.stop ≤ B.start

variable {B B' : Block} {j : ℕ}

lemma four_le_sclassSize (sclass : ℕ) : 4 ≤ sclassSize sclass := by
  rw [sclassSize_eq]
  exact Nat.le_mul_of_pos_right 4 (Nat.two_pow_pos sclass)

/-- The length slot and the link slot lie in every block. -/
lemma start_add_two_le (B : Block) : B.start + 2 ≤ B.stop := by
  have := four_le_sclassSize B.sclass
  unfold stop
  omega

lemma Disjoint.symm (h : B.Disjoint B') : B'.Disjoint B := Or.symm h

lemma Disjoint.not_mem (h : B.Disjoint B') (hj : B.Mem j) : ¬B'.Mem j := by
  unfold Disjoint at h
  unfold Mem at hj ⊢
  omega

lemma disjoint_of_stop_le (h : B.stop ≤ B'.start) : B.Disjoint B' := .inl h

end Block

variable {T : Type}

/-! ### Frames -/

/-- The data changed only inside the blocks `bs` and past its old end. -/
structure Frame (data data' : List T) (bs : List Block) : Prop where
  length_le : data.length ≤ data'.length
  getElem?_eq : ∀ j < data.length, (∀ B ∈ bs, ¬B.Mem j) → data'[j]? = data[j]?

namespace Frame

variable {data data₁ data₂ : List T} {bs bs' : List Block}

lemma refl (data : List T) (bs : List Block) : Frame data data bs :=
  ⟨Nat.le_refl _, fun _ _ _ => rfl⟩

/-- A frame allows any more blocks. -/
lemma mono (h : Frame data data₁ bs) (hsub : ∀ B ∈ bs, B ∈ bs') : Frame data data₁ bs' :=
  ⟨h.length_le, fun j hj hout => h.getElem?_eq j hj fun B hB => hout B (hsub B hB)⟩

/-- Two writes in a row change the blocks of the first, and of the second those that were
blocks of the first or lay past the end of the data. -/
lemma trans (h₁ : Frame data data₁ bs) (h₂ : Frame data₁ data₂ bs')
    (hsub : ∀ B ∈ bs', B ∈ bs ∨ data.length ≤ B.start) : Frame data data₂ bs := by
  refine ⟨Nat.le_trans h₁.length_le h₂.length_le, fun j hj hout => ?_⟩
  rw [h₂.getElem?_eq j (Nat.lt_of_lt_of_le hj h₁.length_le) fun B hB hmem => ?_,
    h₁.getElem?_eq j hj hout]
  rcases hsub B hB with hin | hfresh
  · exact hout B hin hmem
  · exact absurd hmem.1 (by omega)

/-- A frame of an extension of the data. -/
lemma of_append (data tail : List T) (bs : List Block) : Frame data (data ++ tail) bs :=
  ⟨by simp, fun j hj _ => List.getElem?_append_left hj⟩

/-- An indexed assignment inside a block is a write to that block. -/
lemma of_setAt {i : ℕ} {x : T} (h : Slice.setAt data i x = some data₁) {B : Block}
    (hB : B.Mem i) (hin : B ∈ bs) : Frame data data₁ bs := by
  refine ⟨Nat.le_of_eq (Slice.length_of_setAt h).symm, fun j _ hout => ?_⟩
  refine Slice.getElem?_of_setAt_of_ne h fun hij => hout B hin ?_
  rwa [← hij]

/-- A copy into a range inside a block is a write to that block. -/
lemma of_write {dest : ℕ} {src : List T} (h : Slice.write data dest src = some data₁) {B : Block}
    (hB : B.start ≤ dest ∧ dest + src.length ≤ B.stop) (hin : B ∈ bs) : Frame data data₁ bs := by
  refine ⟨Nat.le_of_eq (Slice.length_of_write h).symm, fun j _ hout => ?_⟩
  rw [Slice.getElem?_of_write h, if_neg]
  intro hj
  exact hout B hin ⟨by omega, by omega⟩

/-- A sub-slice inside a block apart from the written ones reads the same. -/
lemma read_eq (h : Frame data data₁ bs) {B₀ : Block} (hB₀ : B₀.stop ≤ data.length)
    (hd : ∀ B ∈ bs, B₀.Disjoint B) {a n : ℕ} (ha : B₀.start ≤ a) (han : a + n ≤ B₀.stop) :
    Slice.read data₁ a n = Slice.read data a n := by
  refine Slice.read_congr fun k hk => h.getElem?_eq _ (by omega) fun B hB => ?_
  exact (hd B hB).not_mem ⟨by omega, by omega⟩

end Frame

/-! ### Stored lists -/

variable [EntityNew T]

/-- The block a list of length `xs.length`, whose length slot is at `b`, owns. -/
def listBlock (b : ℕ) (xs : List T) : Block := ⟨b, sclassForLength xs.length⟩

/-- The block at `b` stores the non-empty list `xs`: its length, then its elements, in a block of
the size class of its length inside the data. -/
structure Stores (data : List T) (b : ℕ) (xs : List T) : Prop where
  ne_nil : xs ≠ []
  short : xs.length < 2 ^ 32
  len : data[b]?.map EntityRef.index = some xs.length
  elems : Slice.read data (b + 1) xs.length = xs
  inside : (listBlock b xs).stop ≤ data.length

namespace Stores

variable {data data' : List T} {b : ℕ} {xs : List T} {bs : List Block}

/-- The length slot and the elements lie in the block. -/
lemma mem_of_le (h : Stores data b xs) {j : ℕ} (hb : b ≤ j) (hj : j ≤ b + xs.length) :
    (listBlock b xs).Mem j := by
  have := lt_sclassSize h.short
  show b ≤ j ∧ j < b + sclassSize (sclassForLength xs.length)
  omega

/-- **A stored list survives a write to blocks disjoint from its own.** -/
lemma frame (h : Stores data b xs) (hf : Frame data data' bs)
    (hd : ∀ B ∈ bs, (listBlock b xs).Disjoint B) : Stores data' b xs := by
  -- every index of the list's block is outside the written blocks
  have heq : ∀ j, (listBlock b xs).Mem j → data'[j]? = data[j]? := fun j hj =>
    hf.getElem?_eq j (Nat.lt_of_lt_of_le hj.2 h.inside) fun B hB => (hd B hB).not_mem hj
  refine ⟨h.ne_nil, h.short, ?_, ?_, Nat.le_trans h.inside hf.length_le⟩
  · rw [heq b (h.mem_of_le (Nat.le_refl b) (Nat.le_add_right _ _)), h.len]
  · rw [Slice.read_congr fun k hk => heq _ (h.mem_of_le (by omega) (by omega)), h.elems]

end Stores

/-! ### Free lists -/

/-- The free list threaded from `head` through the blocks at `bs`: each holds, after its length
slot, the link to the next one offset by one, and `0` follows the last. -/
def Chain (data : List T) : ℕ → List ℕ → Prop
  | head, [] => head = 0
  | head, b :: bs => head = b + 1 ∧ ∃ t, data[b + 1]? = some t ∧ Chain data (EntityRef.index t) bs

namespace Chain

variable {data data' : List T} {head : ℕ} {bs : List ℕ}

/-- **A free list survives a write that leaves its link slots.** -/
lemma frame (h : Chain data head bs) {blocks : List Block} (hf : Frame data data' blocks)
    (hlinks : ∀ b ∈ bs, b + 1 < data.length ∧ ∀ B ∈ blocks, ¬B.Mem (b + 1)) :
    Chain data' head bs := by
  induction bs generalizing head with
  | nil => exact h
  | cons b bs ih =>
    obtain ⟨hhead, t, ht, hrest⟩ := h
    have hb := hlinks b List.mem_cons_self
    refine ⟨hhead, t, ?_, ih hrest fun b' hb' => hlinks b' (List.mem_cons_of_mem _ hb')⟩
    rw [hf.getElem?_eq _ hb.1 hb.2, ht]

/-- A head is `0` or one past the start of a block whose link slot is in the data. -/
lemma head_le (h : Chain data head bs) (hlinks : ∀ b ∈ bs, b + 1 < data.length) :
    head ≤ data.length := by
  cases bs with
  | nil =>
    rw [show head = 0 from h]
    exact Nat.zero_le _
  | cons b bs =>
    rw [h.1]
    exact Nat.le_of_lt (hlinks b List.mem_cons_self)

end Chain

/-- The starts of the free blocks of class `c`, in the order of their free list. -/
def freeOf (frees : List Block) (c : ℕ) : List ℕ :=
  (frees.filter fun B => B.sclass = c).map Block.start

/-- **The pool is well formed** with the free blocks `frees`: the head of each size class starts
the chain of its free blocks, the free blocks lie inside the data, and the data is short enough
for `u32` indices. -/
structure PoolWf (pool : ListPool T) (frees : List Block) : Prop where
  chain : ∀ c, Chain pool.data (pool.free.getD c 0) (freeOf frees c)
  inside : ∀ B ∈ frees, B.stop ≤ pool.data.length
  small : pool.data.length < 2 ^ 32

section FreeOf

variable {frees : List Block} {c : ℕ}

lemma mem_of_mem_freeOf {b : ℕ} (h : b ∈ freeOf frees c) : (⟨b, c⟩ : Block) ∈ frees := by
  obtain ⟨B, hB, rfl⟩ := List.mem_map.mp h
  obtain ⟨hmem, hc⟩ := List.mem_filter.mp hB
  rw [decide_eq_true_eq] at hc
  rw [← hc]
  exact hmem

lemma freeOf_cons_self (b c : ℕ) (frees : List Block) :
    freeOf (⟨b, c⟩ :: frees) c = b :: freeOf frees c := by
  simp [freeOf]

lemma freeOf_cons_of_ne {B : Block} (h : B.sclass ≠ c) (frees : List Block) :
    freeOf (B :: frees) c = freeOf frees c := by
  simp [freeOf, h]

/-- Taking the head of the free list of class `c` erases its block from `frees`, and leaves
the other classes. -/
lemma freeOf_erase {b : ℕ} {rest : List ℕ} (h : freeOf frees c = b :: rest) (c' : ℕ) :
    freeOf (frees.erase ⟨b, c⟩) c' = if c' = c then rest else freeOf frees c' := by
  unfold freeOf at h ⊢
  rw [← List.erase_filter]
  obtain ⟨B, L, hfilter, hB, hL⟩ := List.map_eq_cons_iff.mp h
  have hBc : B = ⟨b, c⟩ := by
    have hmem := List.mem_filter.mp (hfilter ▸ List.mem_cons_self : B ∈ _)
    rw [decide_eq_true_eq] at hmem
    cases B
    simp_all
  split
  · rename_i hc
    subst hc
    rw [hfilter, hBc, List.erase_cons_head, hL]
  · rename_i hc
    rw [List.erase_of_not_mem]
    intro hmem
    have := (List.mem_filter.mp hmem).2
    simp at this
    exact hc this.symm

end FreeOf

/-- The block `B` was taken off the free blocks `frees`, which leaves `frees₁`, or is fresh: past
the end `len` of the data. -/
def TakenFrom (len : ℕ) (frees : List Block) (B : Block) (frees₁ : List Block) : Prop :=
  (B :: frees₁).Perm frees ∨ (frees₁ = frees ∧ len ≤ B.start)

namespace TakenFrom

variable {len : ℕ} {frees frees₁ : List Block} {B : Block}

lemma subset (h : TakenFrom len frees B frees₁) : ∀ F ∈ frees₁, F ∈ frees := by
  rcases h with hperm | ⟨rfl, -⟩
  · exact fun F hF => hperm.subset (List.mem_cons_of_mem _ hF)
  · exact fun F hF => hF

lemma mem_or_fresh (h : TakenFrom len frees B frees₁) : B ∈ frees ∨ len ≤ B.start := by
  rcases h with hperm | ⟨-, hfresh⟩
  · exact .inl (hperm.subset List.mem_cons_self)
  · exact .inr hfresh

lemma pairwise (h : TakenFrom len frees B frees₁) (hfd : frees.Pairwise Block.Disjoint) :
    frees₁.Pairwise Block.Disjoint := by
  rcases h with hperm | ⟨rfl, -⟩
  · exact (List.pairwise_cons.mp ((hperm.pairwise_iff fun h => Block.Disjoint.symm h).mpr hfd)).2
  · exact hfd

/-- The block taken is apart from the blocks left free. -/
lemma disjoint (h : TakenFrom len frees B frees₁) (hfd : frees.Pairwise Block.Disjoint)
    (hin : ∀ F ∈ frees, F.stop ≤ len) : ∀ F ∈ frees₁, B.Disjoint F := by
  rcases h with hperm | ⟨rfl, hfresh⟩
  · exact (List.pairwise_cons.mp ((hperm.pairwise_iff fun h => Block.Disjoint.symm h).mpr hfd)).1
  · exact fun F hF => .inr (Nat.le_trans (hin F hF) hfresh)

/-- A block apart from all free blocks and inside the data is apart from the block taken. -/
lemma disjoint_of_disjoint (h : TakenFrom len frees B frees₁) {B₀ : Block}
    (hB₀ : B₀.stop ≤ len) (hd : ∀ F ∈ frees, B₀.Disjoint F) : B₀.Disjoint B := by
  rcases h.mem_or_fresh with hin | hfresh
  · exact hd B hin
  · exact .inl (Nat.le_trans hB₀ hfresh)

end TakenFrom

section PoolWf

variable {pool : ListPool T} {frees : List Block}

omit [EntityNew T] in
lemma getD_free_eq_zero_of_le {c : ℕ} (h : pool.free.length ≤ c) : pool.free.getD c 0 = 0 := by
  rw [List.getD_eq_getElem?_getD, List.getElem?_eq_none h, Option.getD_none]

/-- The link slot of a free block is inside the data. -/
lemma PoolWf.link_lt (hw : PoolWf pool frees) {c b : ℕ} (hb : b ∈ freeOf frees c) :
    b + 1 < pool.data.length := by
  have hin := hw.inside _ (mem_of_mem_freeOf hb)
  have := Block.start_add_two_le ⟨b, c⟩
  simp only [Block.stop] at hin this
  omega

/-- The link slots of the free blocks lie outside the blocks disjoint from every free block. -/
lemma PoolWf.links_outside (hw : PoolWf pool frees) {bs : List Block}
    (hdis : ∀ B ∈ bs, ∀ B' ∈ frees, B.Disjoint B') (c : ℕ) :
    ∀ b ∈ freeOf frees c, b + 1 < pool.data.length ∧ ∀ B ∈ bs, ¬B.Mem (b + 1) := by
  intro b hb
  refine ⟨hw.link_lt hb, fun B hB hmem => ?_⟩
  have hlink : (⟨b, c⟩ : Block).Mem (b + 1) := by
    have := Block.four_le_sclassSize c
    show b ≤ b + 1 ∧ b + 1 < b + sclassSize c
    omega
  exact (hdis B hB _ (mem_of_mem_freeOf hb)).symm.not_mem hlink hmem

/-- **The free lists survive a write to blocks disjoint from the free blocks.** -/
lemma PoolWf.chain_frame (hw : PoolWf pool frees) {data' : List T} {bs : List Block}
    (hf : Frame pool.data data' bs) (hdis : ∀ B ∈ bs, ∀ B' ∈ frees, B.Disjoint B') (c : ℕ) :
    Chain data' (pool.free.getD c 0) (freeOf frees c) :=
  (hw.chain c).frame hf (hw.links_outside hdis c)

/-- A write to blocks disjoint from the free ones keeps the pool well formed. -/
lemma PoolWf.frame (hw : PoolWf pool frees) {data' : List T} {bs : List Block}
    (hf : Frame pool.data data' bs) (hdis : ∀ B ∈ bs, ∀ B' ∈ frees, B.Disjoint B')
    (hsmall : data'.length < 2 ^ 32) : PoolWf { pool with data := data' } frees :=
  ⟨hw.chain_frame hf hdis, fun B hB => Nat.le_trans (hw.inside B hB) hf.length_le, hsmall⟩

end PoolWf

omit [EntityNew T] in
/-- Resizing the heads with zeros keeps every head. -/
lemma getD_append_replicate_zero (free : List ℕ) (k c : ℕ) :
    (free ++ List.replicate k 0).getD c 0 = free.getD c 0 := by
  rw [List.getD_eq_getElem?_getD, List.getD_eq_getElem?_getD, List.getElem?_append]
  split
  · rfl
  · rename_i hc
    rw [List.getElem?_eq_none (Nat.le_of_not_lt hc), List.getElem?_replicate]
    split <;> rfl

namespace ListPool

variable {pool pool' : ListPool T} {frees : List Block}

variable [ReservedValue T]

/-- **`alloc`** takes the head of the free list of the class, or else appends a fresh block:
either way a block of the class inside the new data, which was free or lies past the old end. -/
theorem alloc_spec (hw : PoolWf pool frees) (c : ℕ)
    (hfit : pool.data.length + sclassSize c < 2 ^ 32) :
    ∃ b pool' frees', pool.alloc c = some (b, pool') ∧ PoolWf pool' frees' ∧
      Frame pool.data pool'.data [] ∧ (⟨b, c⟩ : Block).stop ≤ pool'.data.length ∧
      pool'.data.length ≤ pool.data.length + sclassSize c ∧
      TakenFrom pool.data.length frees ⟨b, c⟩ frees' := by
  cases hfree : freeOf frees c with
  | nil =>
    -- an empty free list: its head is `0`, and `alloc` appends a block
    have hhead : pool.free.getD c 0 = 0 := by simpa [hfree, Chain] using hw.chain c
    have hnone : pool.free[c]?.filter (0 < ·) = none := by
      rw [List.getD_eq_getElem?_getD] at hhead
      cases hget : pool.free[c]? with
      | none => rfl
      | some head =>
        rw [hget, Option.getD_some] at hhead
        simp [hhead]
    let pool' : ListPool T := { pool with
      data := pool.data ++ List.replicate (sclassSize c) ReservedValue.reservedValue }
    have hframe : Frame pool.data pool'.data [] := Frame.of_append _ _ _
    have hlen : pool'.data.length = pool.data.length + sclassSize c := by simp [pool']
    refine ⟨pool.data.length, pool', frees, by simp [alloc, hnone, pool'], ⟨fun c' => ?_,
      fun B hB => Nat.le_trans (hw.inside B hB) hframe.length_le, by omega⟩, hframe,
      by rw [hlen]; exact Nat.le_refl _, Nat.le_of_eq hlen, .inr ⟨rfl, Nat.le_refl _⟩⟩
    exact (hw.chain c').frame hframe fun b hb => ⟨hw.link_lt hb, fun _ h => absurd h List.not_mem_nil⟩
  | cons b rest =>
    -- the head of the free list is `b + 1`, and its link is the next head
    obtain ⟨hhead, t, ht, hrest⟩ : pool.free.getD c 0 = b + 1 ∧ ∃ t, pool.data[b + 1]? = some t ∧
        Chain pool.data (EntityRef.index t) rest := by
      simpa [hfree, Chain] using hw.chain c
    have hc : c < pool.free.length := by
      by_contra hge
      rw [getD_free_eq_zero_of_le (Nat.le_of_not_lt hge)] at hhead
      omega
    have hsome : pool.free[c]?.filter (0 < ·) = some (b + 1) := by
      rw [List.getD_eq_getElem?_getD, List.getElem?_eq_getElem hc, Option.getD_some] at hhead
      rw [List.getElem?_eq_getElem hc, hhead]
      simp
    have hmem : (⟨b, c⟩ : Block) ∈ frees := mem_of_mem_freeOf (by rw [hfree]; exact List.mem_cons_self)
    let pool' : ListPool T := { pool with free := pool.free.set c (EntityRef.index t) }
    refine ⟨b, pool', frees.erase ⟨b, c⟩, by simp [alloc, hsome, ht, pool'], ⟨fun c' => ?_,
      fun B hB => hw.inside B (List.mem_of_mem_erase hB), hw.small⟩, Frame.refl _ _,
      hw.inside _ hmem, Nat.le_add_right _ _, .inl (List.perm_cons_erase hmem).symm⟩
    rw [freeOf_erase hfree c']
    by_cases hcc : c' = c
    · subst hcc
      rw [if_pos rfl]
      simpa [pool', List.getD_eq_getElem?_getD, List.getElem?_set_self hc] using hrest
    · rw [if_neg hcc]
      have hget : pool'.free.getD c' 0 = pool.free.getD c' 0 := by
        simp [pool', List.getD_eq_getElem?_getD, List.getElem?_set_ne (Ne.symm hcc)]
      rw [hget]
      exact hw.chain c'

omit [ReservedValue T] in
/-- **`free`** clears the block's length slot, links it to the old head of its free list and
makes it the head: a write to that block only. -/
theorem freeBlock_spec (hw : PoolWf pool frees) {B : Block} (hB : B.stop ≤ pool.data.length)
    (hdis : ∀ B' ∈ frees, B.Disjoint B') :
    ∃ pool', pool.freeBlock B.start B.sclass = some pool' ∧ PoolWf pool' (B :: frees) ∧
      Frame pool.data pool'.data [B] ∧ pool'.data.length = pool.data.length := by
  obtain ⟨b, c⟩ := B
  have hslots := Block.start_add_two_le ⟨b, c⟩
  simp only [Block.stop] at hB hslots
  -- the heads after the resize
  set free₁ := if pool.free.length ≤ c then
      pool.free ++ List.replicate (c + 1 - pool.free.length) 0 else pool.free with hfree₁
  have hget₁ : ∀ c', free₁.getD c' 0 = pool.free.getD c' 0 := by
    intro c'
    rw [hfree₁]
    split
    · exact getD_append_replicate_zero _ _ _
    · rfl
  have hlen₁ : c < free₁.length := by
    rw [hfree₁]
    split
    · simp only [List.length_append, List.length_replicate]
      omega
    · omega
  -- the two writes, to the length slot and the link slot
  set head := pool.free.getD c 0
  have hhead : free₁[c]?.getD 0 = head := by
    rw [show head = free₁.getD c 0 from (hget₁ c).symm, List.getD_eq_getElem?_getD]
  have hset₁ : Slice.setAt pool.data b (EntityNew.new 0) = some (pool.data.set b (EntityNew.new 0)) :=
    Slice.setAt_of_lt (by omega)
  set data₁ := pool.data.set b (EntityNew.new 0)
  have hb₁ : b + 1 < data₁.length := by
    simp only [data₁, List.length_set]
    omega
  have hset₂ : Slice.setAt data₁ (b + 1) (EntityNew.new head) =
      some (data₁.set (b + 1) (EntityNew.new head)) := Slice.setAt_of_lt hb₁
  set data₂ := data₁.set (b + 1) (EntityNew.new head)
  have hdef : pool.freeBlock b c = some ⟨data₂, free₁.set c (b + 1)⟩ := by
    simp only [freeBlock, ← hfree₁, hset₁, hhead, hset₂, Option.bind_eq_bind, Option.bind_some,
      Option.pure_def]
  have hblock : (⟨b, c⟩ : Block) ∈ [(⟨b, c⟩ : Block)] := List.mem_singleton_self _
  have hf : Frame pool.data data₂ [⟨b, c⟩] :=
    (Frame.of_setAt hset₁ ⟨Nat.le_refl b, by simp only [Block.stop]; omega⟩ hblock).trans
      (Frame.of_setAt hset₂ ⟨Nat.le_succ b, by simp only [Block.stop]; omega⟩ hblock)
      fun B hB => .inl hB
  have hlen₂ : data₂.length = pool.data.length := by simp [data₂, data₁]
  have hdis' : ∀ B ∈ [(⟨b, c⟩ : Block)], ∀ B' ∈ frees, B.Disjoint B' := by
    intro B hB
    rw [List.mem_singleton.mp hB]
    exact hdis
  refine ⟨_, hdef, ⟨fun c' => ?_, ?_, by rw [hlen₂]; exact hw.small⟩, hf, hlen₂⟩
  · by_cases hcc : c' = c
    · -- the freed block heads its class, linked to the old head
      subst hcc
      have hhead_lt : head < 2 ^ 32 :=
        Nat.lt_of_le_of_lt ((hw.chain c').head_le fun b hb => hw.link_lt hb) hw.small
      rw [freeOf_cons_self]
      simp only [Chain]
      refine ⟨by simp [List.getD_eq_getElem?_getD, List.getElem?_set_self hlen₁],
        EntityNew.new head, by simp [data₂, List.getElem?_set_self hb₁], ?_⟩
      rw [EntityNew.index_new head hhead_lt]
      exact hw.chain_frame hf hdis' c'
    · have hget : (free₁.set c (b + 1)).getD c' 0 = pool.free.getD c' 0 := by
        rw [List.getD_eq_getElem?_getD, List.getElem?_set_ne (Ne.symm hcc), ← hget₁ c',
          List.getD_eq_getElem?_getD]
      rw [hget, freeOf_cons_of_ne (Ne.symm hcc)]
      exact hw.chain_frame hf hdis' c'
  · intro B₁ hB₁
    rw [hlen₂]
    rcases List.mem_cons.mp hB₁ with rfl | hB₁
    · exact hB
    · exact hw.inside B₁ hB₁

omit [EntityNew T] [ReservedValue T] in
/-- `mut_slices` splits the vector between two disjoint blocks, so the copy of at most a block's
worth of slots from one to the other never panics. -/
lemma copyBlock_eq {data : List T} {B B' : Block} (hd : B.Disjoint B')
    (hB : B.stop ≤ data.length) (hB' : B'.stop ≤ data.length) {n : ℕ}
    (hn : n ≤ sclassSize B.sclass) (hn' : n ≤ sclassSize B'.sclass) :
    copyBlock data B.start B'.start n = Slice.write data B'.start (Slice.read data B.start n) := by
  unfold Block.Disjoint Block.stop at hd
  unfold Block.stop at hB hB'
  unfold copyBlock
  split
  · rw [if_pos ⟨by omega, by omega, by omega⟩]
  · rw [if_pos ⟨by omega, by omega, by omega⟩]

/-- **`realloc`** copies the first `n` slots of a block to a block of the new class, which was
free or is fresh, and frees the old block; it writes only those two blocks. -/
theorem realloc_spec (hw : PoolWf pool frees) (hfd : frees.Pairwise Block.Disjoint) {B : Block}
    (hB : B.stop ≤ pool.data.length) (hdis : ∀ B' ∈ frees, B.Disjoint B') {toSclass n : ℕ}
    (hn : n ≤ sclassSize B.sclass) (hn' : n ≤ sclassSize toSclass)
    (hfit : pool.data.length + sclassSize toSclass < 2 ^ 32) :
    ∃ b' pool' frees', pool.realloc B.start B.sclass toSclass n = some (b', pool') ∧
      PoolWf pool' (B :: frees') ∧ Frame pool.data pool'.data (B :: frees) ∧
      (⟨b', toSclass⟩ : Block).stop ≤ pool'.data.length ∧
      pool'.data.length ≤ pool.data.length + sclassSize toSclass ∧
      TakenFrom pool.data.length frees ⟨b', toSclass⟩ frees' ∧ (⟨b', toSclass⟩ : Block).Disjoint B ∧
      Slice.read pool'.data b' n = Slice.read pool.data B.start n := by
  obtain ⟨b', pool₁, frees₁, halloc, hw₁, hf₁, hstop₁, hlen₁, hperm₁⟩ := alloc_spec hw toSclass hfit
  set B' : Block := ⟨b', toSclass⟩
  -- the new block was free, or lies past the old end: either way apart from the old one and from
  -- the blocks still free
  have hsub₁ := hperm₁.subset
  have hnew := hperm₁.mem_or_fresh
  have hBB' : B'.Disjoint B := (hperm₁.disjoint_of_disjoint hB hdis).symm
  have hB'frees₁ := hperm₁.disjoint hfd hw.inside
  have hB₁ : B.stop ≤ pool₁.data.length := Nat.le_trans hB hf₁.length_le
  have hBn : B.start + n ≤ pool₁.data.length := by
    have : B.start + sclassSize B.sclass ≤ pool₁.data.length := hB₁
    omega
  have hB'n : b' + n ≤ B'.stop := by
    show b' + n ≤ b' + sclassSize toSclass
    omega
  -- the copy, a write to the new block
  obtain ⟨pool₂, hcopy, hw₂, hf₂, hlen₂, hread₂⟩ : ∃ pool₂ : ListPool T,
      (if 0 < n then (do
        let data ← copyBlock pool₁.data B.start b' n
        pure { pool₁ with data }) else pure pool₁) = some pool₂ ∧
      PoolWf pool₂ frees₁ ∧ Frame pool₁.data pool₂.data [B'] ∧
      pool₂.data.length = pool₁.data.length ∧
      Slice.read pool₂.data b' n = Slice.read pool₁.data B.start n := by
    split
    · have hcopy : copyBlock pool₁.data B.start b' n =
          Slice.write pool₁.data b' (Slice.read pool₁.data B.start n) :=
        copyBlock_eq hBB'.symm hB₁ hstop₁ hn hn'
      have hlen_read := Slice.length_read hBn
      obtain ⟨data₂, hdata₂⟩ : ∃ data₂, Slice.write pool₁.data b' (Slice.read pool₁.data B.start n) =
          some data₂ := ⟨_, Slice.write_of_le (by rw [hlen_read]; exact Nat.le_trans hB'n hstop₁)⟩
      have hf : Frame pool₁.data data₂ [B'] :=
        Frame.of_write hdata₂ ⟨Nat.le_refl _, by rw [hlen_read]; exact hB'n⟩
          (List.mem_singleton_self _)
      refine ⟨{ pool₁ with data := data₂ }, by simp [hcopy, hdata₂], hw₁.frame hf ?_ ?_, hf,
        Slice.length_of_write hdata₂, ?_⟩
      · intro B₂ hB₂
        rw [List.mem_singleton.mp hB₂]
        exact hB'frees₁
      · rw [Slice.length_of_write hdata₂]
        exact Nat.lt_of_le_of_lt hlen₁ hfit
      · have h := Slice.read_of_write hdata₂
        rwa [hlen_read] at h
    · rename_i hn0
      have hn0 : n = 0 := by omega
      subst hn0
      exact ⟨pool₁, rfl, hw₁, Frame.refl _ _, rfl, by simp [Slice.read]⟩
  -- freeing the old block
  have hB₂ : B.stop ≤ pool₂.data.length := by rw [hlen₂]; exact hB₁
  obtain ⟨pool₃, hfree, hw₃, hf₃, hlen₃⟩ :=
    freeBlock_spec hw₂ hB₂ fun B₁ hB₁ => hdis B₁ (hsub₁ B₁ hB₁)
  refine ⟨b', pool₃, frees₁, ?_, hw₃, ?_, ?_, ?_, hperm₁, hBB', ?_⟩
  · have hassert : ¬¬(n ≤ sclassSize B.sclass ∧ n ≤ sclassSize toSclass) := fun h => h ⟨hn, hn'⟩
    simp only [realloc, if_neg hassert, halloc, Option.bind_eq_bind, Option.bind_some,
      Option.pure_def] at hcopy ⊢
    split
    · rename_i hpos
      rw [if_pos hpos] at hcopy
      obtain ⟨data₂, hcb, hp⟩ := Option.bind_eq_some_iff.mp hcopy
      rw [Option.some.injEq] at hp
      subst hp
      rw [hcb, Option.bind_some, hfree, Option.bind_some]
    · rename_i hpos
      rw [if_neg hpos, Option.some.injEq] at hcopy
      subst hcopy
      rw [hfree, Option.bind_some]
  · refine ((hf₁.mono fun _ h => absurd h List.not_mem_nil).trans hf₂ fun B₂ hB₂ => ?_).trans hf₃
      fun B₂ hB₂ => ?_
    · rw [List.mem_singleton.mp hB₂]
      rcases hnew with hin | hfresh
      · exact .inl (List.mem_cons_of_mem _ hin)
      · exact .inr hfresh
    · rw [List.mem_singleton.mp hB₂]
      exact .inl List.mem_cons_self
  · rw [hlen₃, hlen₂]
    exact hstop₁
  · rw [hlen₃, hlen₂]
    exact hlen₁
  · -- the old block is written after the copy, and is apart from the new one
    rw [hf₃.read_eq (show B'.stop ≤ pool₂.data.length by rw [hlen₂]; exact hstop₁) (fun B₂ hB₂ => by
        rw [List.mem_singleton.mp hB₂]; exact hBB') (show b' ≤ b' from Nat.le_refl _) hB'n, hread₂,
      hf₁.read_eq hB (fun B₂ hB₂ => absurd hB₂ List.not_mem_nil) (Nat.le_refl _)
        (by show B.start + n ≤ B.start + sclassSize B.sclass; omega)]

end ListPool

end Cranelift.Entity
