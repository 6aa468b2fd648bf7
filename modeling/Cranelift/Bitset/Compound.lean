import Mathlib.Data.Finset.Max
import Cranelift.Bitset.Scalar

/-!
# Compound bitsets

A model of `cranelift/bitset/src/compound.rs`. A `CompoundBitSet` is a growable array of
`ScalarBitSet<usize>` words, element `i` being bit `i % 64` of word `i / 64` (`usize` has 64 bits
on the targets Cranelift supports), together with a cached maximum `max : Option<u32>`.

Indices are naturals, as `usize` values that never overflow here; `u32::try_from(i).unwrap()` is
checked and panics (is `none`) from `2 ^ 32` on. The `debug_assert!`s of `elem` and `clear` are
not modelled: the bits given to `elem` are below 64, and `clear` only clears what its assertion
promises is all there is.

## Main definitions

* `Cranelift.Bitset.CompoundBitSet` with `ensureCapacity`, `contains`, `insert`, `remove`,
  `updateMax`, `pop`, `clear`, `len` and `iter`.
* `Cranelift.Bitset.CompoundBitSet.sorted` — the elements in increasing order, and `members`.
* `Cranelift.Bitset.IsMaxOf` — an optional value is the largest element of a finite set.
* `Cranelift.Bitset.CompoundBitSet.Inv` — the cached maximum is the largest element, and every
  element is below `2 ^ 32`.
* `Cranelift.Bitset.CompoundBitSet.Op` — the calls that change a bitset, with `Op.spec`, the same
  call on a finite set.

## Main results

* `Cranelift.Bitset.CompoundBitSet.Inv.elems_eq_nil_of_lt` — no word after the word of the
  maximum has an element, which `clear` and the rescan of `update_max` rely on.
* `Cranelift.Bitset.CompoundBitSet.Inv.insert`, `Inv.remove`, `Inv.pop`, `Inv.clear` — each
  operation keeps the invariant and acts on `members` as the set operation.
* `Cranelift.Bitset.CompoundBitSet.contains_eq`, `len_eq_card`, `iter_run` — the queries.
* `Cranelift.Bitset.CompoundBitSet.run_refines_finset` — any run from `new` is a run of a finite
  set.
-/

namespace Cranelift.Bitset

/-- `BITS_PER_WORD`. -/
def bitsPerWord : ℕ := 64

/-! ### Largest elements -/

section IsMaxOf

variable {α : Type*} [LinearOrder α] {A : Finset α} {m : Option α}

/-- `m` is the largest element of `A`, and `none` when `A` is empty. -/
def IsMaxOf (A : Finset α) (m : Option α) : Prop := ∀ x, m = some x ↔ x ∈ A ∧ ∀ y ∈ A, y ≤ x

lemma IsMaxOf.mem {x : α} (h : IsMaxOf A m) (hx : m = some x) : x ∈ A := ((h x).mp hx).1

lemma IsMaxOf.le {x y : α} (h : IsMaxOf A m) (hx : m = some x) (hy : y ∈ A) : y ≤ x :=
  ((h x).mp hx).2 y hy

lemma IsMaxOf.eq_empty (h : IsMaxOf A none) : A = ∅ := by
  rw [Finset.eq_empty_iff_forall_notMem]
  intro x hx
  have hne : A.Nonempty := ⟨x, hx⟩
  cases (h (A.max' hne)).mpr ⟨A.max'_mem hne, fun y hy => A.le_max' y hy⟩

lemma IsMaxOf.max'_eq {x : α} (h : IsMaxOf A (some x)) :
    ∃ hne : A.Nonempty, A.max' hne = x := by
  have hne : A.Nonempty := ⟨x, h.mem rfl⟩
  exact ⟨hne, le_antisymm (A.max'_le hne x fun y hy => h.le rfl hy) (A.le_max' x (h.mem rfl))⟩

lemma isMaxOf_empty : IsMaxOf (∅ : Finset α) none := by simp [IsMaxOf]

/-- Inserting `i` raises the largest element to `max m i`, or makes it `i`. -/
lemma IsMaxOf.insert [DecidableEq α] (h : IsMaxOf A m) (i : α) :
    IsMaxOf (insert i A) ((m.map (Max.max · i)).or (some i)) := by
  intro x
  cases m with
  | none =>
    rw [h.eq_empty]
    simp only [Option.map_none, Option.or_some, Option.getD_none, Option.some.injEq,
      insert_empty_eq, Finset.mem_singleton, eq_comm, forall_eq', iff_self_and]
    exact fun hx => hx.le
  | some m =>
    have hm := h.mem rfl
    simp only [Option.map_some, Option.or_some, Option.some.injEq, Finset.mem_insert,
      forall_eq_or_imp]
    constructor
    · rintro rfl
      refine ⟨?_, le_max_right m i, fun y hy => (h.le rfl hy).trans (le_max_left m i)⟩
      rcases max_choice m i with hmax | hmax
      · rw [hmax]
        exact .inr hm
      · exact .inl hmax
    · rintro ⟨hx, hix, hA⟩
      apply le_antisymm (max_le (hA m hm) hix)
      rcases hx with rfl | hx
      · exact le_max_right m x
      · exact (h.le rfl hx).trans (le_max_left m i)

/-- Erasing anything but the largest element keeps it. -/
lemma IsMaxOf.erase_of_ne [DecidableEq α] {x i : α} (h : IsMaxOf A (some x)) (hne : i ≠ x) :
    IsMaxOf (A.erase i) (some x) := by
  have hx : x ∈ A.erase i := Finset.mem_erase.mpr ⟨hne.symm, h.mem rfl⟩
  intro y
  rw [Option.some.injEq]
  constructor
  · rintro rfl
    exact ⟨hx, fun z hz => h.le rfl (Finset.mem_of_mem_erase hz)⟩
  · rintro ⟨hy, hmax⟩
    exact le_antisymm (hmax x hx) (h.le rfl (Finset.mem_of_mem_erase hy))

/-- The last element of an increasing list is its largest. -/
lemma isMaxOf_getLast? {l : List α} (hl : l.Pairwise (· < ·)) :
    IsMaxOf l.toFinset l.getLast? := by
  rcases List.eq_nil_or_concat l with rfl | ⟨ys, z, rfl⟩
  · simp [IsMaxOf]
  · rw [List.concat_eq_append] at hl ⊢
    have hz : ∀ y ∈ ys, y < z := fun y hy =>
      (List.pairwise_append.mp hl).2.2 y hy z (List.mem_singleton_self z)
    intro x
    simp only [List.getLast?_concat, Option.some.injEq, List.mem_toFinset, List.mem_append,
      List.mem_singleton]
    constructor
    · rintro rfl
      exact ⟨.inr rfl, fun y hy => hy.elim (fun hy => (hz y hy).le) (fun hy => hy.le)⟩
    · rintro ⟨hx, hmax⟩
      exact le_antisymm (hmax z (.inr rfl)) (hx.elim (fun hx => (hz x hx).le) (fun hx => hx.le))

end IsMaxOf

/-- `CompoundBitSet`: the words and the cached maximum. -/
structure CompoundBitSet where
  elems : List (ScalarBitSet 64)
  max : Option ℕ

namespace CompoundBitSet

/-- `new`, `#[derive(Default)]`: no words and no maximum. -/
def new : CompoundBitSet := ⟨[], none⟩

/-- `word_and_bit`. -/
def wordAndBit (i : ℕ) : ℕ × ℕ := (i / bitsPerWord, i % bitsPerWord)

/-- `elem`: the element at `bit` of `word`. -/
def elem (word bit : ℕ) : ℕ := word * bitsPerWord + bit

/-- `u32::try_from(i).unwrap()`. -/
def toU32 (i : ℕ) : Option ℕ := if i < 2 ^ 32 then some i else none

lemma toU32_of_lt {i : ℕ} (h : i < 2 ^ 32) : toU32 i = some i := if_pos h

/-- `isize::MAX`, the bound on the number of words. -/
def isizeMax : ℕ := 2 ^ 63 - 1

/-- `ensure_capacity`: grow the words so that the word of `n` exists, at least doubling and by
at least four words. -/
def ensureCapacity (s : CompoundBitSet) (n : ℕ) : Option CompoundBitSet :=
  let (word, _) := wordAndBit n
  if s.elems.length ≤ word then do
    if ¬word < isizeMax then none
    let delta := word - s.elems.length
    let toGrow := Max.max (Max.max (delta + 1) (s.elems.length * 2)) 4
    return { s with elems := s.elems ++ List.replicate toGrow ScalarBitSet.new }
  else some s

/-- `with_capacity`. -/
def withCapacity (capacity : ℕ) : Option CompoundBitSet := new.ensureCapacity capacity

/-- `len`: the sum of the words' counts. -/
def len (s : CompoundBitSet) : ℕ := (s.elems.map ScalarBitSet.len).sum

/-- `capacity`. -/
def capacity (s : CompoundBitSet) : ℕ := s.elems.length * bitsPerWord

/-- `contains`: false beyond the last word. -/
def contains (s : CompoundBitSet) (i : ℕ) : Option Bool :=
  let (word, bit) := wordAndBit i
  match s.elems[word]? with
  | some sub => sub.contains bit
  | none => some false

/-- `insert`: make room, set the bit, and raise the cached maximum. -/
def insert (s : CompoundBitSet) (i : ℕ) : Option (Bool × CompoundBitSet) := do
  let s ← s.ensureCapacity (i + 1)
  let (word, bit) := wordAndBit i
  let sub ← s.elems[word]?
  let (isNew, sub) ← sub.insert bit
  let i ← toU32 i
  return (isNew, ⟨s.elems.set word sub, (s.max.map fun max => Max.max max i).or (some i)⟩)

/-- `update_max`: the largest element of the words up to `wordOfOldMax`, scanning down. The
`u32` conversion is made only for the element found. -/
def updateMax (s : CompoundBitSet) (wordOfOldMax : ℕ) : Option CompoundBitSet := do
  let found := ((s.elems.take (wordOfOldMax + 1)).zipIdx.reverse.findSome? fun p =>
    p.1.max.map (elem p.2 ·))
  match found with
  | none => return { s with max := none }
  | some e => return { s with max := some (← toU32 e) }

/-- `remove`: clear the bit, and rescan for the maximum when it was the maximum. -/
def remove (s : CompoundBitSet) (i : ℕ) : Option (Bool × CompoundBitSet) :=
  let (word, bit) := wordAndBit i
  match s.elems[word]? with
  | some sub => do
    let (wasPresent, sub) ← sub.remove bit
    let s := { s with elems := s.elems.set word sub }
    if wasPresent && s.max == some i then
      return (wasPresent, ← s.updateMax word)
    else
      return (wasPresent, s)
  | none => some (false, s)

/-- `pop`: remove the maximum. -/
def pop (s : CompoundBitSet) : Option (Option ℕ × CompoundBitSet) :=
  match s.max with
  | none => some (none, s)
  | some max => (s.remove max).map fun r => (some max, r.2)

/-- `clear`: empty the words up to the word of the maximum. Slicing `..=word` panics past the
last word. -/
def clear (s : CompoundBitSet) : Option CompoundBitSet :=
  match s.max with
  | none => some s
  | some max =>
    let (word, _) := wordAndBit max
    if word < s.elems.length then
      some ⟨List.replicate (word + 1) ScalarBitSet.new ++ s.elems.drop (word + 1), none⟩
    else none

/-- `Iter`: the word being read and the iterator of its bits. -/
structure Iter where
  bitset : CompoundBitSet
  word : ℕ
  sub : Option (ScalarBitSet.Iter 64)

/-- `iter`. -/
def iter (s : CompoundBitSet) : Iter := ⟨s, 0, none⟩

/-- The `self.sub = Some(self.bitset.elems.get(self.word)?.iter())` step of `Iter::next` and the
loop after it, over `rest`, the words from `word` on. When the words run out, `next` returns
`None` and keeps the iterator it had. -/
def Iter.load (bitset : CompoundBitSet) :
    ℕ → List (ScalarBitSet 64) → Option (ScalarBitSet.Iter 64) → Option (Option ℕ × Iter)
  | word, [], sub => some (none, ⟨bitset, word, sub⟩)
  | word, sub :: rest, _ => do
    let (bit, it) ← sub.iter.next
    match bit with
    | some bit => return (some (elem word bit), ⟨bitset, word, some it⟩)
    | none => load bitset (word + 1) rest (some it)

/-- `Iter::next`. -/
def Iter.next (it : Iter) : Option (Option ℕ × Iter) :=
  match it.sub with
  | some sub => do
    let (bit, sub) ← sub.next
    match bit with
    | some bit => return (some (elem it.word bit), { it with sub := some sub })
    | none => Iter.load it.bitset (it.word + 1) (it.bitset.elems.drop (it.word + 1)) (some sub)
  | none => Iter.load it.bitset it.word (it.bitset.elems.drop it.word) none

/-! ### The elements -/

/-- The elements of `words`, the first of which is word `k`: word by word, each word's in
increasing order. -/
def elemsFrom (k : ℕ) (words : List (ScalarBitSet 64)) : List ℕ :=
  (words.zipIdx k).flatMap fun p => p.1.elems.map (elem p.2 ·)

/-- The elements in increasing order. -/
def sorted (s : CompoundBitSet) : List ℕ := elemsFrom 0 s.elems

/-- The set of elements. -/
def members (s : CompoundBitSet) : Finset ℕ := s.sorted.toFinset

lemma elem_div {word bit : ℕ} (h : bit < 64) : elem word bit / 64 = word := by
  simp only [elem, bitsPerWord]
  omega

lemma elem_mod {word bit : ℕ} (h : bit < 64) : elem word bit % 64 = bit := by
  simp only [elem, bitsPerWord]
  omega

lemma elem_div_mod (i : ℕ) : elem (i / 64) (i % 64) = i := by
  simp only [elem, bitsPerWord]
  omega

@[simp] lemma elemsFrom_nil (k : ℕ) : elemsFrom k [] = [] := rfl

lemma elemsFrom_cons (k : ℕ) (sub : ScalarBitSet 64) (words : List (ScalarBitSet 64)) :
    elemsFrom k (sub :: words) = sub.elems.map (elem k ·) ++ elemsFrom (k + 1) words := by
  simp [elemsFrom, List.zipIdx_cons]

lemma elemsFrom_append (k : ℕ) (l₁ l₂ : List (ScalarBitSet 64)) :
    elemsFrom k (l₁ ++ l₂) = elemsFrom k l₁ ++ elemsFrom (k + l₁.length) l₂ := by
  simp [elemsFrom, List.zipIdx_append]

/-- An element of the words from `k` on lies in a word from `k` on, at its bit there. -/
lemma mem_elemsFrom {k x : ℕ} {words : List (ScalarBitSet 64)} :
    x ∈ elemsFrom k words ↔
      k ≤ x / 64 ∧ ∃ sub, words[x / 64 - k]? = some sub ∧ x % 64 ∈ sub.elems := by
  induction words generalizing k with
  | nil => simp
  | cons sub words ih =>
    rw [elemsFrom_cons, List.mem_append, ih, List.mem_map]
    constructor
    · rintro (⟨bit, hbit, rfl⟩ | ⟨hk, sub', hsub', hx⟩)
      · have hlt := ScalarBitSet.lt_of_mem_elems hbit
        refine ⟨by rw [elem_div hlt], sub, by simp [elem_div hlt], by rwa [elem_mod hlt]⟩
      · have hidx : x / 64 - k = (x / 64 - (k + 1)) + 1 := by omega
        exact ⟨by omega, sub', by rwa [hidx, List.getElem?_cons_succ], hx⟩
    · rintro ⟨hk, sub', hsub', hx⟩
      rcases Nat.eq_or_lt_of_le hk with heq | hlt
      · -- the element lies in the first word
        have hidx : x / 64 - k = 0 := by omega
        rw [hidx, List.getElem?_cons_zero, Option.some.injEq] at hsub'
        subst hsub'
        exact .inl ⟨x % 64, hx, by rw [heq, elem_div_mod]⟩
      · have hidx : x / 64 - k = (x / 64 - (k + 1)) + 1 := by omega
        rw [hidx, List.getElem?_cons_succ] at hsub'
        exact .inr ⟨by omega, sub', hsub', hx⟩

lemma elemsFrom_sorted (k : ℕ) (words : List (ScalarBitSet 64)) :
    (elemsFrom k words).Pairwise (· < ·) := by
  induction words generalizing k with
  | nil => simp
  | cons sub words ih =>
    rw [elemsFrom_cons, List.pairwise_append, List.pairwise_map]
    refine ⟨sub.elems_sorted.imp fun h => ?_, ih (k + 1), fun a ha b hb => ?_⟩
    · simp only [elem, bitsPerWord]
      omega
    · -- the elements of word `k` lie below those of the words after it
      obtain ⟨bit, hbit, rfl⟩ := List.mem_map.mp ha
      have hlt := ScalarBitSet.lt_of_mem_elems hbit
      have hb' := (mem_elemsFrom.mp hb).1
      simp only [elem, bitsPerWord]
      omega

lemma length_elemsFrom (k : ℕ) (words : List (ScalarBitSet 64)) :
    (elemsFrom k words).length = (words.map ScalarBitSet.len).sum := by
  induction words generalizing k with
  | nil => rfl
  | cons sub words ih => simp [elemsFrom_cons, ih, ScalarBitSet.len_eq]

lemma elemsFrom_eq_nil {k : ℕ} {words : List (ScalarBitSet 64)}
    (h : ∀ sub ∈ words, sub.elems = []) : elemsFrom k words = [] := by
  rw [List.eq_nil_iff_forall_not_mem]
  intro x hx
  obtain ⟨-, sub, hsub, hx⟩ := mem_elemsFrom.mp hx
  rw [h sub (List.mem_of_getElem? hsub)] at hx
  exact List.not_mem_nil hx

lemma sorted_strictMono (s : CompoundBitSet) : s.sorted.Pairwise (· < ·) :=
  elemsFrom_sorted 0 s.elems

lemma mem_members {s : CompoundBitSet} {x : ℕ} :
    x ∈ s.members ↔ ∃ sub, s.elems[x / 64]? = some sub ∧ x % 64 ∈ sub.elems := by
  simp [members, sorted, mem_elemsFrom]

/-- **`contains` is membership.** -/
theorem contains_eq (s : CompoundBitSet) (i : ℕ) :
    s.contains i = some (decide (i ∈ s.members)) := by
  simp only [contains, wordAndBit, bitsPerWord]
  split
  · rename_i sub hsub
    rw [ScalarBitSet.contains_eq (Nat.mod_lt i (by decide))]
    simp [mem_members, hsub]
  · rename_i hnone
    simp [mem_members, hnone]

/-- **`len` is the number of elements.** -/
theorem len_eq_card (s : CompoundBitSet) : s.len = s.members.card := by
  rw [members, List.toFinset_card_of_nodup (sorted_strictMono s).nodup, sorted, length_elemsFrom]
  rfl

/-! ### The invariant -/

/-- The invariant of a `CompoundBitSet`: the cached maximum is the largest element, and every
element fits the `u32` that caches it. -/
structure Inv (s : CompoundBitSet) : Prop where
  max_spec : IsMaxOf s.members s.max
  lt_two_pow : ∀ x ∈ s.members, x < 2 ^ 32

lemma Inv.new : new.Inv := ⟨isMaxOf_empty, fun x hx => absurd hx (Finset.notMem_empty x)⟩

/-- **No word after the word of the maximum has an element.** -/
lemma Inv.elems_eq_nil_of_lt {s : CompoundBitSet} (hs : s.Inv) {m j : ℕ} (hm : s.max = some m)
    (hj : m / 64 < j) {sub : ScalarBitSet 64} (hsub : s.elems[j]? = some sub) :
    sub.elems = [] := by
  rw [List.eq_nil_iff_forall_not_mem]
  intro bit hbit
  have hlt := ScalarBitSet.lt_of_mem_elems hbit
  have hmem : elem j bit ∈ s.members :=
    mem_members.mpr ⟨sub, by rwa [elem_div hlt], by rwa [elem_mod hlt]⟩
  have hdiv : elem j bit / 64 ≤ m / 64 := Nat.div_le_div_right (hs.max_spec.le hm hmem)
  rw [elem_div hlt] at hdiv
  omega

lemma Inv.drop_elems_eq_nil {s : CompoundBitSet} (hs : s.Inv) {m : ℕ} (hm : s.max = some m) :
    ∀ sub ∈ s.elems.drop (m / 64 + 1), sub.elems = [] := by
  intro sub hsub
  obtain ⟨d, hd⟩ := List.mem_iff_getElem?.mp hsub
  rw [List.getElem?_drop] at hd
  exact hs.elems_eq_nil_of_lt hm (by omega) hd

/-- Appending empty words changes no element. -/
lemma members_append_of_eq_nil (s : CompoundBitSet) {pad : List (ScalarBitSet 64)}
    (hpad : ∀ sub ∈ pad, sub.elems = []) (m : Option ℕ) :
    (⟨s.elems ++ pad, m⟩ : CompoundBitSet).members = s.members := by
  rw [members, members, sorted, sorted, elemsFrom_append, elemsFrom_eq_nil hpad, List.append_nil]

/-- Setting word `word` changes the elements of that word only. -/
lemma mem_members_set {s : CompoundBitSet} {word : ℕ} (hword : word < s.elems.length)
    (sub : ScalarBitSet 64) (m : Option ℕ) {x : ℕ} :
    x ∈ (⟨s.elems.set word sub, m⟩ : CompoundBitSet).members ↔
      (x / 64 = word ∧ x % 64 ∈ sub.elems) ∨ (x / 64 ≠ word ∧ x ∈ s.members) := by
  rw [mem_members, mem_members, List.getElem?_set]
  by_cases hx : x / 64 = word
  · subst hx
    simp [hword]
  · simp [hx, Ne.symm hx]

/-- The elements of word `i / 64` that share the word of `i`. -/
lemma mem_sub_iff {s : CompoundBitSet} {i x : ℕ} {sub : ScalarBitSet 64}
    (hsub : s.elems[i / 64]? = some sub) (hx : x / 64 = i / 64) :
    x % 64 ∈ sub.elems ↔ x ∈ s.members := by
  rw [mem_members, hx, hsub]
  simp

/-! ### The operations -/

/-- **`ensure_capacity` only appends empty words**, enough of them for the word of `n`; it
panics only past `isize::MAX` words. -/
theorem ensureCapacity_spec (s : CompoundBitSet) {n : ℕ} (hn : n / 64 < isizeMax) :
    ∃ pad, s.ensureCapacity n = some ⟨s.elems ++ pad, s.max⟩ ∧ (∀ sub ∈ pad, sub.elems = []) ∧
      n / 64 < s.elems.length + pad.length := by
  by_cases hle : s.elems.length ≤ n / 64
  · refine ⟨List.replicate (Max.max (Max.max (n / 64 - s.elems.length + 1)
      (s.elems.length * 2)) 4) ScalarBitSet.new,
      by simp [ensureCapacity, wordAndBit, bitsPerWord, hle, hn], fun sub hsub => ?_, ?_⟩
    · rw [List.eq_of_mem_replicate hsub]
      exact ScalarBitSet.elems_new
    · simp only [List.length_replicate]
      omega
  · exact ⟨[], by simp [ensureCapacity, wordAndBit, bitsPerWord, hle], by simp, by omega⟩

lemma Inv.ensureCapacity {s : CompoundBitSet} (hs : s.Inv) {pad : List (ScalarBitSet 64)}
    (hpad : ∀ sub ∈ pad, sub.elems = []) : (⟨s.elems ++ pad, s.max⟩ : CompoundBitSet).Inv := by
  have hmembers := members_append_of_eq_nil s hpad s.max
  exact ⟨hmembers ▸ hs.max_spec, hmembers ▸ hs.lt_two_pow⟩

/-- **`insert` adds the element**, reporting whether it is new; it panics only from `2 ^ 32`
on. -/
theorem Inv.insert {s : CompoundBitSet} (hs : s.Inv) {i : ℕ} (hi : i < 2 ^ 32) :
    ∃ s', s.insert i = some (decide (i ∉ s.members), s') ∧ s'.Inv ∧
      s'.members = Insert.insert i s.members := by
  obtain ⟨pad, hcap, hpad, hlen⟩ := s.ensureCapacity_spec (n := i + 1) (by simp only [isizeMax]; omega)
  set s₁ : CompoundBitSet := ⟨s.elems ++ pad, s.max⟩ with hs₁
  have hmembers₁ : s₁.members = s.members := members_append_of_eq_nil s hpad s.max
  have hword : i / 64 < s₁.elems.length := by
    simp only [hs₁, List.length_append]
    omega
  set sub := s₁.elems[i / 64] with hsub
  have hsub? : s₁.elems[i / 64]? = some sub := List.getElem?_eq_getElem hword
  obtain ⟨sub', hins, hmem'⟩ := ScalarBitSet.insert_spec (s := sub) (Nat.mod_lt i (by decide))
  have hnew : decide (i % 64 ∉ sub.elems) = decide (i ∉ s.members) := by
    simp only [mem_sub_iff hsub? rfl, hmembers₁]
  have hmembers' : (⟨s₁.elems.set (i / 64) sub', (s.max.map fun m => Max.max m i).or (some i)⟩ :
      CompoundBitSet).members = Insert.insert i s.members := by
    ext x
    rw [mem_members_set hword, hmem', Finset.mem_insert, hmembers₁]
    by_cases hx : x / 64 = i / 64
    · have hxi : x % 64 = i % 64 ↔ x = i := by omega
      simp [hx, mem_sub_iff hsub? hx, hmembers₁, hxi, or_comm]
    · have hxi : x ≠ i := fun h => hx (h ▸ rfl)
      simp [hx, hxi]
  refine ⟨_, ?_, ⟨hmembers' ▸ hs.max_spec.insert i, ?_⟩, hmembers'⟩
  · have hmax₁ : s₁.max = s.max := rfl
    simp [CompoundBitSet.insert, hcap, wordAndBit, bitsPerWord, hsub?, hins, hnew,
      toU32_of_lt hi, hmax₁]
  · rw [hmembers']
    intro x hx
    rcases Finset.mem_insert.mp hx with rfl | hx
    · exact hi
    · exact hs.lt_two_pow x hx

lemma getLast?_elemsFrom (k : ℕ) (words : List (ScalarBitSet 64)) :
    (elemsFrom k words).getLast? =
      (words.zipIdx k).reverse.findSome? fun p => p.1.max.map (elem p.2 ·) := by
  simp [elemsFrom, List.getLast?_flatMap, ScalarBitSet.max_eq, List.getLast?_map]

/-- **`update_max` finds the largest element**, when no word after `word` has one. -/
lemma updateMax_spec {s : CompoundBitSet} {word : ℕ}
    (habove : ∀ sub ∈ s.elems.drop (word + 1), sub.elems = [])
    (hlt : ∀ x ∈ s.members, x < 2 ^ 32) :
    s.updateMax word = some ⟨s.elems, s.sorted.getLast?⟩ := by
  have hfound : ((s.elems.take (word + 1)).zipIdx.reverse.findSome? fun p =>
      p.1.max.map (elem p.2 ·)) = s.sorted.getLast? := by
    rw [← getLast?_elemsFrom, sorted]
    conv_rhs => rw [← List.take_append_drop (word + 1) s.elems]
    rw [elemsFrom_append, elemsFrom_eq_nil habove, List.append_nil]
  simp only [updateMax, hfound]
  cases hlast : s.sorted.getLast? with
  | none => rfl
  | some e =>
    have he : e ∈ s.members := List.mem_toFinset.mpr (List.mem_of_getLast? hlast)
    simp [toU32_of_lt (hlt e he)]

/-- `remove` within the words: the word's `remove`, and the rescan when the maximum goes. -/
lemma remove_of_getElem? {s : CompoundBitSet} {i : ℕ} {sub : ScalarBitSet 64}
    (hsub? : s.elems[i / 64]? = some sub) {b : Bool} {sub' : ScalarBitSet 64}
    (hrem : sub.remove (i % 64) = some (b, sub')) :
    s.remove i = if (b && s.max == some i) = true then
        ((⟨s.elems.set (i / 64) sub', s.max⟩ : CompoundBitSet).updateMax (i / 64)).bind
          fun s' => some (b, s')
      else some (b, ⟨s.elems.set (i / 64) sub', s.max⟩) := by
  simp only [CompoundBitSet.remove, wordAndBit, bitsPerWord, hsub?, hrem]
  rfl

/-- **`remove` erases the element**, reporting whether it was present; when it removes the
maximum, the rescan finds the new one. -/
theorem Inv.remove {s : CompoundBitSet} (hs : s.Inv) (i : ℕ) :
    ∃ s', s.remove i = some (decide (i ∈ s.members), s') ∧ s'.Inv ∧
      s'.members = s.members.erase i := by
  cases hsub? : s.elems[i / 64]? with
  | none =>
    -- past the last word: nothing to remove
    have hi : i ∉ s.members := by simp [mem_members, hsub?]
    exact ⟨s, by simp [CompoundBitSet.remove, wordAndBit, bitsPerWord, hsub?, hi], hs,
      (Finset.erase_eq_of_notMem hi).symm⟩
  | some sub =>
    have hword : i / 64 < s.elems.length := (List.getElem?_eq_some_iff.mp hsub?).1
    obtain ⟨sub', hrem, he⟩ := ScalarBitSet.remove_spec (s := sub) (Nat.mod_lt i (by decide))
    have hpresent : decide (i % 64 ∈ sub.elems) = decide (i ∈ s.members) := by
      simp only [mem_sub_iff hsub? rfl]
    set s₂ : CompoundBitSet := ⟨s.elems.set (i / 64) sub', s.max⟩ with hs₂
    have hmembers₂ : s₂.members = s.members.erase i := by
      ext x
      rw [mem_members_set hword, he, sub.elems_nodup.mem_erase_iff, Finset.mem_erase]
      by_cases hx : x / 64 = i / 64
      · have hxi : x % 64 = i % 64 ↔ x = i := by omega
        simp [hx, mem_sub_iff hsub? hx, hxi]
      · have hxi : x ≠ i := fun h => hx (h ▸ rfl)
        simp [hx, hxi]
    have hlt₂ : ∀ x ∈ s₂.members, x < 2 ^ 32 := fun x hx =>
      hs.lt_two_pow x (Finset.mem_of_mem_erase (hmembers₂ ▸ hx))
    by_cases hmax : i ∈ s.members ∧ s.max = some i
    · -- the maximum is removed: the words after its word are empty, so the rescan finds the
      -- largest element left
      have habove : ∀ sub ∈ s₂.elems.drop (i / 64 + 1), sub.elems = [] := by
        rw [hs₂, List.drop_set_of_lt (Nat.lt_succ_self _)]
        exact hs.drop_elems_eq_nil hmax.2
      refine ⟨⟨s₂.elems, s₂.sorted.getLast?⟩, ?_, ⟨isMaxOf_getLast? (sorted_strictMono s₂), hlt₂⟩,
        hmembers₂⟩
      rw [remove_of_getElem? hsub? hrem, hpresent, if_pos (by simp [hmax.1, hmax.2]), ← hs₂,
        updateMax_spec habove hlt₂]
      rfl
    · have hcond : (decide (i ∈ s.members) && s.max == some i) = false := by
        simpa [Bool.and_eq_false_iff] using hmax
      refine ⟨s₂, ?_, ⟨?_, hlt₂⟩, hmembers₂⟩
      · rw [remove_of_getElem? hsub? hrem, hpresent, hcond]
        rfl
      · show IsMaxOf s₂.members s.max
        rw [hmembers₂]
        cases hm : s.max with
        | none =>
          have hempty : s.members = ∅ := (hm ▸ hs.max_spec).eq_empty
          rw [hempty, Finset.erase_empty]
          exact isMaxOf_empty
        | some m =>
          have hmax' : IsMaxOf s.members (some m) := hm ▸ hs.max_spec
          by_cases hi : i ∈ s.members
          · exact hmax'.erase_of_ne fun h => hmax ⟨hi, h ▸ hm⟩
          · rw [Finset.erase_eq_of_notMem hi]
            exact hmax'

/-- **`pop` removes and returns the maximum.** -/
theorem Inv.pop {s : CompoundBitSet} (hs : s.Inv) :
    ∃ s', s.pop = some (s.max, s') ∧ s'.Inv ∧
      s'.members = s.max.elim s.members s.members.erase := by
  cases hm : s.max with
  | none => exact ⟨s, by simp [CompoundBitSet.pop, hm], hs, rfl⟩
  | some m =>
    obtain ⟨s', hrem, hInv, hmembers⟩ := hs.remove m
    exact ⟨s', by simp [CompoundBitSet.pop, hm, hrem], hInv, hmembers⟩

/-- **`clear` empties the set**: clearing the words up to that of the maximum suffices, since
the words after it are empty. -/
theorem Inv.clear {s : CompoundBitSet} (hs : s.Inv) :
    ∃ s', s.clear = some s' ∧ s'.Inv ∧ s'.members = ∅ := by
  cases hm : s.max with
  | none => exact ⟨s, by simp [CompoundBitSet.clear, hm], hs, (hm ▸ hs.max_spec).eq_empty⟩
  | some m =>
    obtain ⟨top, htop, -⟩ := mem_members.mp (hs.max_spec.mem hm)
    have hword : m / 64 < s.elems.length := (List.getElem?_eq_some_iff.mp htop).1
    set s' : CompoundBitSet :=
      ⟨List.replicate (m / 64 + 1) ScalarBitSet.new ++ s.elems.drop (m / 64 + 1), none⟩ with hs'
    have hnew : ∀ sub ∈ List.replicate (m / 64 + 1) (ScalarBitSet.new : ScalarBitSet 64),
        sub.elems = [] := by
      intro sub hsub
      rw [List.eq_of_mem_replicate hsub]
      exact ScalarBitSet.elems_new
    have hmembers : s'.members = ∅ := by
      rw [members, sorted, elemsFrom_append, elemsFrom_eq_nil hnew,
        elemsFrom_eq_nil (hs.drop_elems_eq_nil hm)]
      rfl
    refine ⟨s', by simp [CompoundBitSet.clear, hm, wordAndBit, bitsPerWord, hword, hs'],
      ⟨hmembers ▸ isMaxOf_empty, ?_⟩, hmembers⟩
    rw [hmembers]
    intro x hx
    exact absurd hx (Finset.notMem_empty x)

/-! ### Iteration -/

/-- The elements an iterator has still to return: those left to the word's iterator, then those
of the words after it; before a word is loaded, those of the words from `word` on. -/
def Iter.rest (it : Iter) : List ℕ :=
  match it.sub with
  | some sub => sub.bitset.elems.map (elem it.word ·) ++
      elemsFrom (it.word + 1) (it.bitset.elems.drop (it.word + 1))
  | none => elemsFrom it.word (it.bitset.elems.drop it.word)

lemma drop_succ_of_drop_eq {l rest : List (ScalarBitSet 64)} {word : ℕ}
    (h : l.drop word = rest) : l.drop (word + 1) = rest.drop 1 := by
  rw [← h, List.drop_drop]

/-- Loading the words `rest` from `word` on returns the first of their elements, keeping the
others, when the iterator held before has nothing left. -/
lemma Iter.load_spec (bitset : CompoundBitSet) :
    ∀ (word : ℕ) (rest : List (ScalarBitSet 64)) (sub : Option (ScalarBitSet.Iter 64)),
      bitset.elems.drop word = rest → (∀ sc, sub = some sc → sc.bitset.elems = []) →
      ∃ it', Iter.load bitset word rest sub = some ((elemsFrom word rest).head?, it') ∧
        it'.bitset = bitset ∧ it'.rest = (elemsFrom word rest).tail
  | word, [], sub, hrest, hsub => by
    -- out of words: `next` keeps the iterator it had, which has nothing left
    refine ⟨⟨bitset, word, sub⟩, rfl, rfl, ?_⟩
    have hdrop := drop_succ_of_drop_eq hrest
    cases sub with
    | none => simp [Iter.rest, hrest]
    | some sc => simp [Iter.rest, hsub sc rfl, hdrop]
  | word, sc :: rest, _, hrest, _ => by
    obtain ⟨sc', hpop, he⟩ := sc.popMin_spec
    have hdrop : bitset.elems.drop (word + 1) = rest := drop_succ_of_drop_eq hrest
    cases hhead : sc.elems with
    | nil =>
      -- an empty word: load the next one
      obtain ⟨it', hload, hbits, hrest'⟩ :=
        load_spec bitset (word + 1) rest (some ⟨sc'⟩) hdrop (by simp [he, hhead])
      refine ⟨it', ?_, hbits, ?_⟩
      · simp [Iter.load, ScalarBitSet.iter, ScalarBitSet.Iter.next, hpop, hhead, hload,
          elemsFrom_cons]
      · rw [hrest', elemsFrom_cons, hhead]
        rfl
    | cons bit bits =>
      refine ⟨⟨bitset, word, some ⟨sc'⟩⟩, ?_, rfl, ?_⟩
      · simp [Iter.load, ScalarBitSet.iter, ScalarBitSet.Iter.next, hpop, hhead, elemsFrom_cons]
      · simp [Iter.rest, he, hhead, hdrop, elemsFrom_cons]

/-- **`next` returns the first element left**, and keeps the others. -/
theorem Iter.next_spec (it : Iter) :
    ∃ it', it.next = some (it.rest.head?, it') ∧ it'.bitset = it.bitset ∧
      it'.rest = it.rest.tail := by
  cases hsub : it.sub with
  | none =>
    obtain ⟨it', hload, hbits, hrest⟩ :=
      Iter.load_spec it.bitset it.word (it.bitset.elems.drop it.word) none rfl (by simp)
    refine ⟨it', by simp [Iter.next, Iter.rest, hsub, hload], hbits, ?_⟩
    rw [hrest]
    simp [Iter.rest, hsub]
  | some sc =>
    obtain ⟨sc', hpop, he⟩ := sc.bitset.popMin_spec
    cases hhead : sc.bitset.elems with
    | nil =>
      -- the word is done: load the words after it
      obtain ⟨it', hload, hbits, hrest⟩ := Iter.load_spec it.bitset (it.word + 1)
        (it.bitset.elems.drop (it.word + 1)) (some ⟨sc'⟩) rfl (by simp [he, hhead])
      refine ⟨it', by simp [Iter.next, Iter.rest, ScalarBitSet.Iter.next, hsub, hpop, hhead, hload],
        hbits, ?_⟩
      rw [hrest]
      simp [Iter.rest, hsub, hhead]
    | cons bit bits =>
      refine ⟨{ it with sub := some ⟨sc'⟩ }, ?_, rfl, ?_⟩
      · simp [Iter.next, Iter.rest, ScalarBitSet.Iter.next, hsub, hpop, hhead]
      · simp [Iter.rest, hsub, he, hhead]

/-- `n` calls of `next`, with what each returned. -/
def Iter.run : ℕ → Iter → Option (List (Option ℕ))
  | 0, _ => some []
  | n + 1, it => do
    let (x, it) ← it.next
    let xs ← run n it
    return x :: xs

/-- **Iteration returns the elements left in order**, then `None`. -/
theorem Iter.run_spec (n : ℕ) (it : Iter) :
    it.run n = some ((List.range n).map fun k => it.rest[k]?) := by
  induction n generalizing it with
  | zero => rfl
  | succ n ih =>
    obtain ⟨it', hnext, -, hrest⟩ := it.next_spec
    simp [Iter.run, hnext, ih, hrest, List.range_succ_eq_map, List.head?_eq_getElem?]

/-- **`iter` returns the elements in increasing order**, then `None`. -/
theorem iter_run (s : CompoundBitSet) (n : ℕ) :
    s.iter.run n = some ((List.range n).map fun k => s.sorted[k]?) :=
  Iter.run_spec n s.iter

/-! ### Refinement of a finite set -/

/-- The calls that change a `CompoundBitSet`, each with the condition under which the source does
not panic: `ensure_capacity` asserts fewer than `isize::MAX` words, and `insert` unwraps the
element into a `u32`. `with_capacity(n)` is `new` followed by `ensure_capacity(n)`. -/
inductive Op where
  | ensureCapacity (n : ℕ) (hn : n / 64 < isizeMax)
  | insert (i : ℕ) (hi : i < 2 ^ 32)
  | remove (i : ℕ)
  | pop
  | clear

/-- A call, keeping the new state. -/
def Op.apply : Op → CompoundBitSet → Option CompoundBitSet
  | .ensureCapacity n _, s => s.ensureCapacity n
  | .insert i _, s => (s.insert i).map Prod.snd
  | .remove i, s => (s.remove i).map Prod.snd
  | .pop, s => s.pop.map Prod.snd
  | .clear, s => s.clear

/-- The same call on a finite set of naturals: `pop` erases the largest element. -/
def Op.spec : Op → Finset ℕ → Finset ℕ
  | .ensureCapacity _ _, A => A
  | .insert i _, A => Insert.insert i A
  | .remove i, A => A.erase i
  | .pop, A => if h : A.Nonempty then A.erase (A.max' h) else A
  | .clear, _ => ∅

/-- The calls one after another. -/
def run (ops : List Op) (s : CompoundBitSet) : Option CompoundBitSet :=
  ops.foldlM (fun s op => op.apply s) s

/-- The abstract `pop` erases the largest element, as the cached maximum names it. -/
lemma spec_pop_eq {A : Finset ℕ} {m : Option ℕ} (h : IsMaxOf A m) :
    Op.pop.spec A = m.elim A A.erase := by
  cases m with
  | none => simp [Op.spec, h.eq_empty]
  | some m =>
    obtain ⟨hne, hmax⟩ := h.max'_eq
    simp [Op.spec, hne, hmax]

/-- **Every call keeps the invariant and acts on the elements as on the set.** -/
theorem Inv.apply {s : CompoundBitSet} (hs : s.Inv) (op : Op) :
    ∃ s', op.apply s = some s' ∧ s'.Inv ∧ s'.members = op.spec s.members := by
  cases op with
  | ensureCapacity n hn =>
    obtain ⟨pad, hcap, hpad, -⟩ := s.ensureCapacity_spec hn
    exact ⟨_, hcap, hs.ensureCapacity hpad, members_append_of_eq_nil s hpad s.max⟩
  | insert i hi =>
    obtain ⟨s', hins, hInv, hmembers⟩ := hs.insert hi
    exact ⟨s', by simp [Op.apply, hins], hInv, hmembers⟩
  | remove i =>
    obtain ⟨s', hrem, hInv, hmembers⟩ := hs.remove i
    exact ⟨s', by simp [Op.apply, hrem], hInv, hmembers⟩
  | pop =>
    obtain ⟨s', hpop, hInv, hmembers⟩ := hs.pop
    exact ⟨s', by simp [Op.apply, hpop], hInv, hmembers.trans (spec_pop_eq hs.max_spec).symm⟩
  | clear =>
    obtain ⟨s', hclear, hInv, hmembers⟩ := hs.clear
    exact ⟨s', hclear, hInv, hmembers⟩

/-- **Every run keeps the invariant and acts on the elements as on the set**, by induction on the
calls. -/
theorem Inv.run {s : CompoundBitSet} (hs : s.Inv) (ops : List Op) :
    ∃ s', run ops s = some s' ∧ s'.Inv ∧
      s'.members = ops.foldl (fun A op => op.spec A) s.members := by
  induction ops generalizing s with
  | nil => exact ⟨s, rfl, hs, rfl⟩
  | cons op ops ih =>
    obtain ⟨s₁, happly, hs₁, hmembers₁⟩ := hs.apply op
    obtain ⟨s', hrun, hs', hmembers'⟩ := ih hs₁
    refine ⟨s', ?_, hs', ?_⟩
    · simp only [CompoundBitSet.run, List.foldlM_cons, happly, Option.bind_eq_bind,
        Option.bind_some]
      exact hrun
    · rw [hmembers', hmembers₁]
      rfl

/-- **`CompoundBitSet` is a finite set of `u32` values.** After any calls from `new`, the
elements are those of the same calls on a finite set; the cached maximum is the largest element,
and no word after its word has one; `contains` is membership, `len` the number of elements,
`iter` returns them in increasing order, and `pop` returns and removes the largest. -/
theorem run_refines_finset (ops : List Op) :
    ∃ s, run ops new = some s ∧ s.members = ops.foldl (fun A op => op.spec A) ∅ ∧
      (∀ x ∈ s.members, x < 2 ^ 32) ∧ IsMaxOf s.members s.max ∧
      (∀ m, s.max = some m → ∀ j, m / 64 < j → ∀ sub, s.elems[j]? = some sub →
        sub.elems = []) ∧
      (∀ i, s.contains i = some (decide (i ∈ s.members))) ∧ s.len = s.members.card ∧
      s.sorted.Pairwise (· < ·) ∧
      (∀ n, s.iter.run n = some ((List.range n).map fun k => s.sorted[k]?)) ∧
      ∃ s', s.pop = some (s.max, s') ∧ s'.members = Op.pop.spec s.members := by
  obtain ⟨s, hrun, hs, hmembers⟩ := Inv.new.run ops
  obtain ⟨s', hpop, -, hpopped⟩ := hs.pop
  refine ⟨s, hrun, hmembers, hs.lt_two_pow, hs.max_spec,
    fun m hm j hj sub hsub => hs.elems_eq_nil_of_lt hm hj hsub, s.contains_eq, s.len_eq_card,
    s.sorted_strictMono, s.iter_run, s', hpop, ?_⟩
  rw [hpopped, spec_pop_eq hs.max_spec]

end CompoundBitSet

end Cranelift.Bitset
