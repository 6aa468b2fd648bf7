import Mathlib.Data.List.Sort
import Cranelift.Lib.AList
import Cranelift.Lib.ParentForest
import Cranelift.Lib.Representatives

/-!
# `DisjointSets`: the union-find of ISLE

A model of `cranelift/isle/isle/src/disjointsets.rs`. The Rust structure is a single
`HashMap<T, (T, u8)>` from each member of a set to its parent and its rank; a set is a tree of
parent links whose root is its own parent. Sets have at least two members and are only formed
by `merge`.

The hash map is an `AList`: `HashMap::get` is `AList.lookup`, `HashMap::insert` of an absent key
is `AList.insert`, `get_mut` followed by a write is `AList.replace` (which keeps the key order)
and `remove` is `AList.erase`. The iteration order of `keys()` is the order of the list; the
only caller that iterates, `remove_set_of`, sorts what it collects; its `sort_unstable` is
insertion sort here, which on a list without duplicates returns the same list as any sort. A panic (`assert_ne!`, an
index of a missing key, `unwrap` of `None`) is `none`.

The `while` loops of `find` and `find_mut` are given one iteration more than the map has keys.
`DisjointSets.find_eq_some_iff` and `DisjointSets.findMut_spec` show that on every well-formed
map this bound is never reached, so the bound only replaces the loop's termination argument.

## Main definitions

* `Cranelift.Isle.DisjointSets` with `find`, `findMut`, `merge`, `inSameSet`, `removeSetOf`,
  `isEmpty` and `len`.
* `Cranelift.Isle.DisjointSets.WellFormed` — parent links stay inside the map and are acyclic.
* `Cranelift.Isle.DisjointSets.Root` — the root reached from a member.

## Main results

* `Cranelift.Isle.DisjointSets.find_eq_some_iff` — `find` returns the root.
* `Cranelift.Isle.DisjointSets.findMut_spec` — `find_mut` returns the root and keeps every root.
* `Cranelift.Isle.DisjointSets.merge_spec` — `merge` of distinct elements joins their sets.
* `Cranelift.Isle.DisjointSets.removeSetOf_spec` — `remove_set_of` removes one set and returns
  it sorted.

## Design

The proofs never chase parent links by hand: each operation is shown to perform one of the
forest updates of `ParentForest` (path halving, linking two roots, adding a root, deleting a
tree), whose lemmas say how root paths change.
-/

namespace Cranelift.Isle

open ParentForest Representatives

/-- `DisjointSets<T>`: the map from each member to its parent and its rank. -/
structure DisjointSets (α : Type) where
  parent : AList fun _ : α => α × UInt8

namespace DisjointSets

variable {α : Type} [DecidableEq α]

/-- `#[derive(Default)]`: no sets. -/
def empty : DisjointSets α := ⟨∅⟩

/-- `u8::saturating_add`. -/
def saturatingAdd (a b : UInt8) : UInt8 :=
  if a.toNat + b.toNat ≤ 255 then a + b else 255

/-- `len`: the total number of elements in all sets. -/
def len (s : DisjointSets α) : ℕ := s.parent.keys.length

/-- `is_empty`. -/
def isEmpty (s : DisjointSets α) : Bool := s.len == 0

/-- The loop of `find`: follow parent links until a member is its own parent. -/
def findLoop (s : DisjointSets α) : ℕ → α → Option α
  | 0, _ => none
  | fuel + 1, x =>
    match s.parent.lookup x with
    | none => none
    | some node => if node.1 = x then some x else findLoop s fuel node.1

/-- `find`: the representative of the set containing `x`, without changing the map. -/
def find (s : DisjointSets α) (x : α) : Option α := s.findLoop (s.len + 1) x

/-- The loop of `find_mut`: path halving. Each step redirects `x` to its grandparent, keeping its
rank, and continues from the grandparent. The outer `none` is a panic of the index
`self.parent[&node.0]`, or the iteration bound. -/
def findMutLoop : ℕ → DisjointSets α → α → Option (Option α × DisjointSets α)
  | 0, _, _ => none
  | fuel + 1, s, x =>
    match s.parent.lookup x with
    | none => some (none, s)
    | some node =>
      if node.1 = x then some (some x, s)
      else
        match s.parent.lookup node.1 with
        | none => none
        | some pnode => findMutLoop fuel ⟨s.parent.replace x (pnode.1, node.2)⟩ pnode.1

/-- `find_mut`: the representative of the set containing `x`, halving the path to it. -/
def findMut (s : DisjointSets α) (x : α) : Option (Option α × DisjointSets α) :=
  findMutLoop (s.len + 1) s x

/-- The first half of `merge` for one argument: the entry of the root of `x`'s set, after
inserting `x` as a singleton root when it is in no set yet. -/
def rootEntry (s : DisjointSets α) (root : Option α) (x : α) :
    Option ((α × UInt8) × DisjointSets α) :=
  match root with
  | some r => (s.parent.lookup r).map fun e => (e, s)
  | none => some ((x, 0), ⟨s.parent.insert x (x, 0)⟩)

/-- `self.parent.get_mut(&y).unwrap().0 = p`. -/
def setParent (s : DisjointSets α) (y p : α) : Option (DisjointSets α) :=
  (s.parent.lookup y).map fun e => ⟨s.parent.replace y (p, e.2)⟩

/-- `x_rank = x_rank.saturating_add(1)` on the entry of `x`. -/
def bumpRank (s : DisjointSets α) (x : α) : Option (DisjointSets α) :=
  (s.parent.lookup x).map fun e => ⟨s.parent.replace x (e.1, saturatingAdd e.2 1)⟩

/-- `merge`: union by rank of the sets containing `x` and `y`. -/
def merge (s : DisjointSets α) (x y : α) : Option (DisjointSets α) := do
  if x = y then none
  let (rx, s) ← s.findMut x
  let (xe, s) ← s.rootEntry rx x
  let (ry, s) ← s.findMut y
  let (ye, s) ← s.rootEntry ry y
  if xe = ye then return s
  -- the root of higher rank becomes the parent
  let (xe, ye) := if xe.2 < ye.2 then (ye, xe) else (xe, ye)
  let s ← s.setParent ye.1 xe.1
  if xe.2 = ye.2 then s.bumpRank xe.1 else return s

/-- `in_same_set`: both elements are in sets, and their representatives agree. -/
def inSameSet (s : DisjointSets α) (x y : α) : Bool :=
  match s.find x, s.find y with
  | some a, some b => a = b
  | _, _ => false

/-- The `retain` of `remove_set_of`: keep the keys whose representative is `r`, calling
`find_mut` on every key in order. The `unwrap` of a `None` representative panics. -/
def retainLoop (r : α) : List α → DisjointSets α → Option (List α × DisjointSets α)
  | [], s => some ([], s)
  | y :: ys, s => do
    let (ry, s) ← s.findMut y
    let ry ← ry
    let (kept, s) ← retainLoop r ys s
    return (if ry = r then y :: kept else kept, s)

/-- `remove_set_of`: remove the set containing `x` and return its members in sorted order. -/
def removeSetOf [LinearOrder α] (s : DisjointSets α) (x : α) :
    Option (List α × DisjointSets α) := do
  let (rx, s) ← s.findMut x
  match rx with
  | none => return ([], s)
  | some r =>
    let (set, s) ← retainLoop r s.parent.keys s
    let s : DisjointSets α := ⟨set.foldl (fun m y => m.erase y) s.parent⟩
    return (set.insertionSort (· ≤ ·), s)

/-! ### The forest of parent links -/

/-- The parent link of `x`, forgetting the rank. -/
def next (s : DisjointSets α) (x : α) : Option α := (s.parent.lookup x).map Prod.fst

/-- The invariant of every map that the operations build: parents are members, and the parent
links are acyclic apart from the self-links of roots. -/
structure WellFormed (s : DisjointSets α) : Prop where
  closed : Closed s.next
  ranked : ∃ h, Ranked s.next h

/-- `s.Root x r`: chasing parent links from `x` ends at the root `r`. -/
def Root (s : DisjointSets α) (x r : α) : Prop := ∃ n, RootPath s.next n x r

@[simp]
lemma isSome_next_iff {s : DisjointSets α} {x : α} : (s.next x).isSome ↔ x ∈ s.parent := by
  simp [next, AList.lookup_isSome]

lemma next_eq_none_iff {s : DisjointSets α} {x : α} : s.next x = none ↔ x ∉ s.parent := by
  rw [← isSome_next_iff, Option.not_isSome_iff_eq_none]

lemma len_eq_card (s : DisjointSets α) : s.len = s.parent.keys.toFinset.card :=
  (List.toFinset_card_of_nodup s.parent.keys_nodup).symm

/-- A root path of a well-formed map is shorter than the number of members. -/
lemma length_lt_len {s : DisjointSets α} {h : α → ℕ} (hr : Ranked s.next h)
    {n : ℕ} {x r : α} (hp : RootPath s.next n x r) : n < s.len := by
  rw [len_eq_card]
  refine hp.length_lt_card' hr _ fun y hy => ?_
  rw [isSome_next_iff, AList.mem_keys] at hy
  exact List.mem_toFinset.mpr hy

/-! ### `find` -/

/-- Enough iterations of the `find` loop reach the root. -/
lemma findLoop_of_rootPath {s : DisjointSets α} {n fuel : ℕ} {x r : α}
    (hp : RootPath s.next n x r) (hfuel : n < fuel) : s.findLoop fuel x = some r := by
  induction hp generalizing fuel with
  | @root y hy =>
    obtain ⟨k, rfl⟩ := Nat.exists_eq_add_of_lt hfuel
    simp only [next, Option.map_eq_some_iff] at hy
    obtain ⟨⟨p, rk⟩, hl, rfl⟩ := hy
    simp [findLoop, hl]
  | @step n y p r hy hne _ ih =>
    obtain ⟨k, rfl⟩ := Nat.exists_eq_add_of_lt hfuel
    simp only [next, Option.map_eq_some_iff] at hy
    obtain ⟨⟨p', rk⟩, hl, rfl⟩ := hy
    rw [findLoop, hl]
    simp only [hne, if_false]
    exact ih (by omega)

/-- A result of the `find` loop is the root. -/
lemma rootPath_of_findLoop {s : DisjointSets α} {fuel : ℕ} {x r : α}
    (h : s.findLoop fuel x = some r) : Root s x r := by
  induction fuel generalizing x with
  | zero => simp [findLoop] at h
  | succ fuel ih =>
    simp only [findLoop] at h
    split at h
    · simp at h
    · rename_i node hl
      have hnx : s.next x = some node.1 := by simp [next, hl]
      split at h
      · rename_i hxx
        cases h
        exact ⟨0, .root (hxx ▸ hnx)⟩
      · rename_i hxx
        obtain ⟨n, hp⟩ := ih h
        exact ⟨n + 1, .step hnx hxx hp⟩

/-- **`find` returns the root.** -/
lemma find_eq_some_iff {s : DisjointSets α} (hw : s.WellFormed) {x r : α} :
    s.find x = some r ↔ s.Root x r := by
  obtain ⟨h, hr⟩ := hw.ranked
  constructor
  · exact rootPath_of_findLoop
  · rintro ⟨n, hp⟩
    exact findLoop_of_rootPath hp (Nat.lt_succ_of_lt (length_lt_len hr hp))

/-- **`find` fails exactly off the map.** -/
lemma find_eq_none_iff {s : DisjointSets α} (hw : s.WellFormed) {x : α} :
    s.find x = none ↔ x ∉ s.parent := by
  obtain ⟨h, hr⟩ := hw.ranked
  constructor
  · intro hn hx
    obtain ⟨n, r, hp⟩ := exists_rootPath hw.closed hr x (isSome_next_iff.mpr hx)
    rw [(find_eq_some_iff hw).mpr ⟨n, hp⟩] at hn
    cases hn
  · intro hx
    cases hf : s.find x with
    | none => rfl
    | some r =>
      obtain ⟨n, hp⟩ := (find_eq_some_iff hw).mp hf
      exact absurd (isSome_next_iff.mp hp.isSome) hx

/-! ### `find_mut` -/

/-- `s'` has the members and the roots of `s`. -/
structure SameSets (s s' : DisjointSets α) : Prop where
  keys_eq : s'.parent.keys = s.parent.keys
  root_iff : ∀ z q, s'.Root z q ↔ s.Root z q

lemma SameSets.refl (s : DisjointSets α) : SameSets s s := ⟨rfl, fun _ _ => Iff.rfl⟩

lemma SameSets.trans {s₁ s₂ s₃ : DisjointSets α} (h₁ : SameSets s₁ s₂) (h₂ : SameSets s₂ s₃) :
    SameSets s₁ s₃ :=
  ⟨h₂.keys_eq.trans h₁.keys_eq, fun z q => (h₂.root_iff z q).trans (h₁.root_iff z q)⟩

lemma SameSets.mem_iff {s s' : DisjointSets α} (h : SameSets s s') {x : α} :
    x ∈ s'.parent ↔ x ∈ s.parent := by
  rw [AList.mem_keys, AList.mem_keys, h.keys_eq]

lemma SameSets.len_eq {s s' : DisjointSets α} (h : SameSets s s') : s'.len = s.len := by
  simp [len, h.keys_eq]

/-- The link of a member, read back from its entry. -/
lemma lookup_of_next {s : DisjointSets α} {x p : α} (h : s.next x = some p) :
    ∃ rk, s.parent.lookup x = some (p, rk) := by
  simp only [next, Option.map_eq_some_iff] at h
  obtain ⟨⟨p', rk⟩, hl, rfl⟩ := h
  exact ⟨rk, hl⟩

/-- Writing a parent link in place changes the forest at that member only. -/
lemma next_replace {s : DisjointSets α} {x g : α} {rk : UInt8} (hx : x ∈ s.parent) :
    (⟨s.parent.replace x (g, rk)⟩ : DisjointSets α).next = Function.update s.next x (some g) := by
  funext z
  by_cases hzx : z = x
  · rw [hzx, Function.update_self]
    simp [next, AList.lookup_replace_self hx]
  · rw [Function.update_of_ne hzx]
    simp [next, AList.lookup_replace_ne hzx]

/-- **The `find_mut` loop returns the root**, keeping the members, the roots and the ranking.

**Proof sketch.** Induction on the iteration bound. A step at a non-root writes the grandparent
into the link of `x`: this is the halving of `ParentForest`, which keeps every root and the
ranking, and the grandparent's root path is no longer than the parent's, so the bound still
suffices. -/
lemma findMutLoop_spec {h : α → ℕ} {fuel n : ℕ} {s : DisjointSets α} {x r : α}
    (hc : Closed s.next) (hr : Ranked s.next h) (hp : RootPath s.next n x r) (hfuel : n < fuel) :
    ∃ s', s.findMutLoop fuel x = some (some r, s') ∧ SameSets s s' ∧ Closed s'.next ∧
      Ranked s'.next h := by
  induction fuel generalizing s x n with
  | zero => omega
  | succ fuel ih =>
    cases hp with
    | root hx =>
      obtain ⟨rk, hl⟩ := lookup_of_next hx
      exact ⟨s, by simp [findMutLoop, hl], .refl s, hc, hr⟩
    | @step n' _ p _ hx hpx hpr =>
      obtain ⟨rk, hl⟩ := lookup_of_next hx
      obtain ⟨g, hg⟩ := Option.isSome_iff_exists.mp (hc x p hx)
      obtain ⟨rk', hlp⟩ := lookup_of_next hg
      have hxm : x ∈ s.parent := isSome_next_iff.mp (by simp [hx])
      have hnext : (⟨s.parent.replace x (g, rk)⟩ : DisjointSets α).next =
          Function.update s.next x (some g) := next_replace hxm
      -- the grandparent's root path in the halved map is no longer than the parent's
      have hgpath : ∃ k ≤ n', RootPath (Function.update s.next x (some g)) k g r := by
        by_cases hgp : g = p
        · obtain ⟨k, hk, hq⟩ := rootPath_halve hr hx hg hpr
          rw [← hgp] at hq
          exact ⟨k, hk, hq⟩
        · cases n' with
          | zero =>
            cases hpr with
            | root hpp =>
              rw [hpp] at hg
              exact absurd (Option.some_injective _ hg).symm hgp
          | succ n'' =>
            obtain ⟨k, hk, hq⟩ := rootPath_halve hr hx hg (hpr.of_step hg)
            exact ⟨k, by omega, hq⟩
      obtain ⟨k, hk, hgk⟩ := hgpath
      rw [← hnext] at hgk
      obtain ⟨s', hs', hsame, hc', hr'⟩ := ih (hnext ▸ closed_halve hg hc)
        (hnext ▸ ranked_halve hr hx hg) hgk (by omega)
      refine ⟨s', ?_, ?_, hc', hr'⟩
      · simpa [findMutLoop, hl, hpx, hlp] using hs'
      · have hs₁ : SameSets s ⟨s.parent.replace x (g, rk)⟩ := by
          refine ⟨AList.keys_replace _ _ _, fun z q => ?_⟩
          unfold Root
          rw [hnext]
          exact ⟨fun ⟨_, hk⟩ => rootPath_of_halve hr hx hg hk,
            fun ⟨_, hk⟩ => (rootPath_halve hr hx hg hk).imp fun _ h => h.2⟩
        exact hs₁.trans hsame

/-- **`find_mut` agrees with `find`**, and it keeps the members, the roots and the invariant. -/
lemma findMut_spec {s : DisjointSets α} (hw : s.WellFormed) (x : α) :
    ∃ s', s.findMut x = some (s.find x, s') ∧ SameSets s s' ∧ s'.WellFormed := by
  obtain ⟨h, hr⟩ := hw.ranked
  by_cases hx : x ∈ s.parent
  · obtain ⟨n, r, hp⟩ := exists_rootPath hw.closed hr x (isSome_next_iff.mpr hx)
    obtain ⟨s', hs', hsame, hc', hr'⟩ :=
      findMutLoop_spec hw.closed hr hp (Nat.lt_succ_of_lt (length_lt_len hr hp))
    refine ⟨s', ?_, hsame, ⟨hc', h, hr'⟩⟩
    rw [(find_eq_some_iff hw).mpr ⟨n, hp⟩]
    exact hs'
  · have hl : s.parent.lookup x = none := AList.lookup_eq_none.mpr hx
    refine ⟨s, ?_, .refl s, hw⟩
    rw [(find_eq_none_iff hw).mpr hx]
    simp [findMut, findMutLoop, hl]

/-! ### The representative function -/

/-- A root is its own parent. -/
lemma next_of_root {s : DisjointSets α} {z r : α} (h : s.Root z r) : s.next r = some r := by
  obtain ⟨_, hp⟩ := h
  exact hp.next_root

/-- On well-formed maps, `find` depends only on the parent links. -/
lemma find_eq_of_next_eq {s s' : DisjointSets α} (hw : s.WellFormed) (hw' : s'.WellFormed)
    (h : s'.next = s.next) : s'.find = s.find := by
  funext z
  cases hf : s.find z with
  | none =>
    rw [find_eq_none_iff hw', ← isSome_next_iff, h, isSome_next_iff]
    exact (find_eq_none_iff hw).mp hf
  | some r =>
    rw [find_eq_some_iff hw']
    obtain ⟨n, hp⟩ := (find_eq_some_iff hw).mp hf
    exact ⟨n, by rw [h]; exact hp⟩

/-- Maps with the same members and roots have the same `find`. -/
lemma SameSets.find_eq {s s' : DisjointSets α} (hw : s.WellFormed) (hw' : s'.WellFormed)
    (h : SameSets s s') : s'.find = s.find := by
  funext z
  cases hf : s.find z with
  | none =>
    rw [find_eq_none_iff hw', h.mem_iff]
    exact (find_eq_none_iff hw).mp hf
  | some r =>
    rw [find_eq_some_iff hw', h.root_iff]
    exact (find_eq_some_iff hw).mp hf

/-- A member's representative is a root. -/
lemma next_of_find {s : DisjointSets α} (hw : s.WellFormed) {z r : α} (h : s.find z = some r) :
    s.next r = some r :=
  next_of_root ((find_eq_some_iff hw).mp h)

/-- Every member has a representative. -/
lemma exists_find {s : DisjointSets α} (hw : s.WellFormed) {z : α} (hz : z ∈ s.parent) :
    ∃ r, s.find z = some r := by
  cases hf : s.find z with
  | none => exact absurd ((find_eq_none_iff hw).mp hf) (not_not.mpr hz)
  | some r => exact ⟨r, rfl⟩

/-- An element with a representative is a member. -/
lemma mem_of_find {s : DisjointSets α} (hw : s.WellFormed) {z r : α} (h : s.find z = some r) :
    z ∈ s.parent := by
  by_contra hz
  rw [(find_eq_none_iff hw).mpr hz] at h
  cases h

/-- The representative of a root is itself. -/
lemma find_root {s : DisjointSets α} (hw : s.WellFormed) {r : α} (h : s.next r = some r) :
    s.find r = some r :=
  (find_eq_some_iff hw).mpr ⟨0, .root h⟩

/-! ### Adding a singleton and linking roots -/

/-- `HashMap::insert` of a singleton root. -/
lemma next_insert {s : DisjointSets α} {x : α} :
    (⟨s.parent.insert x (x, 0)⟩ : DisjointSets α).next = Function.update s.next x (some x) := by
  funext z
  by_cases hzx : z = x
  · rw [hzx, Function.update_self]
    simp [next, AList.lookup_insert]
  · rw [Function.update_of_ne hzx]
    simp [next, AList.lookup_insert_ne hzx]

/-- Adding a singleton keeps the invariant. -/
lemma wellFormed_insert {s : DisjointSets α} (hw : s.WellFormed) (x : α) :
    (⟨s.parent.insert x (x, 0)⟩ : DisjointSets α).WellFormed := by
  obtain ⟨h, hr⟩ := hw.ranked
  have hn : (⟨s.parent.insert x (x, 0)⟩ : DisjointSets α).next =
      Function.update s.next x (some x) := next_insert
  exact ⟨hn ▸ closed_insert hw.closed, h, hn ▸ ranked_insert hr⟩

/-- Adding a singleton `x` makes `x` its own representative and changes no other. -/
lemma find_insert {s : DisjointSets α} (hw : s.WellFormed) {x : α} (hx : x ∉ s.parent) (z : α) :
    (⟨s.parent.insert x (x, 0)⟩ : DisjointSets α).find z = if z = x then some x else s.find z := by
  have hw' := wellFormed_insert hw x
  have hn : (⟨s.parent.insert x (x, 0)⟩ : DisjointSets α).next =
      Function.update s.next x (some x) := next_insert
  rw [← next_eq_none_iff] at hx
  split_ifs with hzx
  · rw [hzx]
    exact find_root hw' (by rw [hn, Function.update_self])
  · cases hf : s.find z with
    | none =>
      rw [find_eq_none_iff hw', ← isSome_next_iff, hn, Function.update_of_ne hzx,
        isSome_next_iff]
      exact (find_eq_none_iff hw).mp hf
    | some r =>
      obtain ⟨n, hp⟩ := (find_eq_some_iff hw).mp hf
      rw [find_eq_some_iff hw']
      exact ⟨n, hn ▸ rootPath_insert hw.closed hx hp⟩

/-- `get_mut(&y).unwrap().0 = p` succeeds on a member and rewrites its link. -/
lemma setParent_spec {s : DisjointSets α} {y : α} (hy : y ∈ s.parent) (p : α) :
    ∃ s', s.setParent y p = some s' ∧ s'.next = Function.update s.next y (some p) ∧
      s'.parent.keys = s.parent.keys := by
  obtain ⟨e, he⟩ := Option.isSome_iff_exists.mp (AList.lookup_isSome.mpr hy)
  exact ⟨⟨s.parent.replace y (p, e.2)⟩, by simp [setParent, he], next_replace hy,
    AList.keys_replace _ _ _⟩

/-- Raising the rank of a root leaves the parent links alone. -/
lemma bumpRank_spec {s : DisjointSets α} {x : α} (hx : s.next x = some x) :
    ∃ s', s.bumpRank x = some s' ∧ s'.next = s.next ∧ s'.parent.keys = s.parent.keys := by
  obtain ⟨rk, hl⟩ := lookup_of_next hx
  have hxm : x ∈ s.parent := isSome_next_iff.mp (by simp [hx])
  refine ⟨⟨s.parent.replace x (x, saturatingAdd rk 1)⟩, by simp [bumpRank, hl], ?_,
    AList.keys_replace _ _ _⟩
  rw [next_replace hxm, Function.update_eq_iff]
  exact ⟨hx.symm, fun _ _ => rfl⟩

/-- **Linking roots.** After the root `lo` is linked below the root `hi`, the representative of
every member of `lo`'s set is `hi`. -/
lemma find_link {s s' : DisjointSets α} (hw : s.WellFormed) {hi lo : α}
    (hhi : s.next hi = some hi) (hlo : s.next lo = some lo) (hne : hi ≠ lo)
    (hs' : s'.next = Function.update s.next lo (some hi)) :
    s'.WellFormed ∧ ∀ z, s'.find z = (s.find z).map (relabel lo hi) := by
  obtain ⟨h, hr⟩ := hw.ranked
  have hw' : s'.WellFormed :=
    ⟨hs' ▸ closed_link hhi hw.closed, hs' ▸ ranked_link hhi hlo hne hr⟩
  refine ⟨hw', fun z => ?_⟩
  cases hf : s.find z with
  | none =>
    rw [Option.map_none, find_eq_none_iff hw', ← isSome_next_iff, hs']
    have hz := (find_eq_none_iff hw).mp hf
    have hzlo : z ≠ lo := fun e => hz (isSome_next_iff.mp (by simp [e, hlo]))
    rw [Function.update_of_ne hzlo, isSome_next_iff]
    exact hz
  | some r =>
    obtain ⟨n, hp⟩ := (find_eq_some_iff hw).mp hf
    rw [Option.map_some, find_eq_some_iff hw']
    exact ⟨_, hs' ▸ rootPath_link hhi hlo hne hp⟩

/-! ### `merge` -/

/-- **The first half of `merge`** for one argument: after `find_mut` and reading the root's
entry, `x` is a member, the entry read is that of its root, and the representatives are those
of `s` with `x` added as a singleton when it was in no set. -/
lemma half_merge_spec {s : DisjointSets α} (hw : s.WellFormed) (x : α) :
    ∃ s₁, s.findMut x = some (s.find x, s₁) ∧ ∃ e s₂, s₁.rootEntry (s.find x) x = some (e, s₂) ∧
      s₂.WellFormed ∧ s₂.find = withSingleton s.find x ∧ s₂.next e.1 = some e.1 ∧
      s₂.find x = some e.1 ∧ ∀ z, z ∈ s₂.parent ↔ z ∈ s.parent ∨ z = x := by
  obtain ⟨s₁, hs₁, hsame, hw₁⟩ := findMut_spec hw x
  have hfind₁ := hsame.find_eq hw hw₁
  refine ⟨s₁, hs₁, ?_⟩
  cases hx : s.find x with
  | some r =>
    have hr₁ : s₁.next r = some r :=
      next_of_find hw₁ (by rw [hfind₁]; exact find_root hw (next_of_find hw hx))
    obtain ⟨rk, hl⟩ := lookup_of_next hr₁
    refine ⟨(r, rk), s₁, by simp [rootEntry, hl], hw₁, ?_, hr₁, by rw [hfind₁]; exact hx, ?_⟩
    · funext z
      rw [hfind₁]
      cases hz : s.find z with
      | some q => rw [withSingleton_of_some hz]
      | none =>
        have hzx : z ≠ x := by
          rintro rfl
          rw [hx] at hz
          cases hz
        simp [withSingleton_of_none hz, hzx]
    · intro z
      have hxm : x ∈ s.parent := by
        by_contra hxm
        rw [(find_eq_none_iff hw).mpr hxm] at hx
        cases hx
      rw [hsame.mem_iff]
      constructor
      · exact .inl
      · rintro (h | rfl)
        · exact h
        · exact hxm
  | none =>
    have hxm : x ∉ s.parent := (find_eq_none_iff hw).mp hx
    have hxm₁ : x ∉ s₁.parent := by rw [hsame.mem_iff]; exact hxm
    have hw₂ := wellFormed_insert hw₁ x
    refine ⟨(x, 0), ⟨s₁.parent.insert x (x, 0)⟩, rfl, hw₂, ?_, ?_, ?_, ?_⟩
    · funext z
      rw [find_insert hw₁ hxm₁, hfind₁]
      by_cases hzx : z = x
      · simp [hzx, withSingleton_of_none hx]
      · cases hz : s.find z with
        | some q => rw [if_neg hzx, withSingleton_of_some hz]
        | none => simp [withSingleton_of_none hz, hzx]
    · simp [next_insert]
    · rw [find_insert hw₁ hxm₁, if_pos rfl]
    · intro z
      rw [AList.mem_insert, hsame.mem_iff]
      tauto

/-- **The second half of `merge`**: linking the root `lo` below the root `hi`, and maybe raising
the rank of `hi`, sends every member of `lo`'s set to `hi`. -/
lemma link_spec {s : DisjointSets α} (hw : s.WellFormed) {hi lo : α}
    (hhi : s.next hi = some hi) (hlo : s.next lo = some lo) (c : Prop) [Decidable c] :
    ∃ s', (do let s ← s.setParent lo hi; if c then s.bumpRank hi else pure s) = some s' ∧
      s'.WellFormed ∧ s'.parent.keys = s.parent.keys ∧
      ∀ z, s'.find z = (s.find z).map (relabel lo hi) := by
  have hlom : lo ∈ s.parent := isSome_next_iff.mp (by simp [hlo])
  obtain ⟨s₅, h₅, hn₅, hk₅⟩ := setParent_spec hlom hi
  -- the link itself: when `hi = lo` it writes back the self-link
  have hlink : s₅.WellFormed ∧ ∀ z, s₅.find z = (s.find z).map (relabel lo hi) := by
    by_cases hhl : hi = lo
    · have hn : s₅.next = s.next := by
        rw [hn₅, ← hhl, Function.update_eq_iff]
        exact ⟨hhi.symm, fun _ _ => rfl⟩
      have hw₅ : s₅.WellFormed := by
        obtain ⟨h, hr⟩ := hw.ranked
        exact ⟨hn ▸ hw.closed, h, hn ▸ hr⟩
      refine ⟨hw₅, fun z => ?_⟩
      rw [find_eq_of_next_eq hw hw₅ hn]
      cases s.find z with
      | none => rfl
      | some q =>
        simp only [Option.map_some, Option.some.injEq, relabel]
        split_ifs with hq <;> simp [hq, hhl]
    · exact find_link hw hhi hlo hhl hn₅
  obtain ⟨hw₅, hf₅⟩ := hlink
  have hhi₅ : s₅.next hi = some hi := by
    rw [hn₅]
    by_cases hhl : hi = lo
    · rw [hhl, Function.update_self]
    · rw [Function.update_of_ne hhl, hhi]
  by_cases hc : c
  · obtain ⟨s₆, h₆, hn₆, hk₆⟩ := bumpRank_spec hhi₅
    have hw₆ : s₆.WellFormed := by
      obtain ⟨h, hr⟩ := hw₅.ranked
      exact ⟨hn₆ ▸ hw₅.closed, h, hn₆ ▸ hr⟩
    refine ⟨s₆, by simp [h₅, hc, h₆], hw₆, hk₆.trans hk₅, fun z => ?_⟩
    rw [find_eq_of_next_eq hw₅ hw₆ hn₆, hf₅]
  · exact ⟨s₅, by simp [h₅, hc], hw₅, hk₅, hf₅⟩

/-- **`merge` joins two sets.** For distinct `x` and `y`, `merge` succeeds; afterwards `x` and `y`
are members, and the representatives are those of `s` with `x` and `y` added as singletons when
they were in no set, except that one of the two roots now stands for both sets.

**Proof sketch.** `half_merge_spec` for `x` and then for `y` gives the roots and the map before
the link, which `link_spec` then performs; the root entries compared by `x == y` are equal
exactly when the two roots are, and otherwise the rank comparison only decides which root is
kept. -/
lemma merge_spec {s : DisjointSets α} (hw : s.WellFormed) {x y : α} (hxy : x ≠ y) :
    ∃ s', s.merge x y = some s' ∧ s'.WellFormed ∧
      (∀ z, z ∈ s'.parent ↔ z ∈ s.parent ∨ z = x ∨ z = y) ∧
      ∃ hi lo, ((withSingleton (withSingleton s.find x) y x = some hi ∧
          withSingleton (withSingleton s.find x) y y = some lo) ∨
        (withSingleton (withSingleton s.find x) y x = some lo ∧
          withSingleton (withSingleton s.find x) y y = some hi)) ∧
      ∀ z, s'.find z =
        (withSingleton (withSingleton s.find x) y z).map (relabel lo hi) := by
  obtain ⟨s₁, h₁, e, s₂, h₂, hw₂, hf₂, hr₂, hx₂, hm₂⟩ := half_merge_spec hw x
  obtain ⟨s₃, h₃, e', s₄, h₄, hw₄, hf₄, hr₄, hy₄, hm₄⟩ := half_merge_spec hw₂ y
  rw [hf₂] at hf₄
  have hx₄ : s₄.find x = some e.1 := by
    rw [hf₄]
    exact withSingleton_of_some (hf₂ ▸ hx₂)
  have hr₄' : s₄.next e.1 = some e.1 := by
    have hfe : s₄.find e.1 = some e.1 := by
      rw [hf₄]
      exact withSingleton_of_some (by rw [← hf₂]; exact find_root hw₂ hr₂)
    exact next_of_find hw₄ hfe
  have hmem : ∀ z, z ∈ s₄.parent ↔ z ∈ s.parent ∨ z = x ∨ z = y := by
    intro z
    rw [hm₄, hm₂, or_assoc]
  have hmem' : ∀ {s' : DisjointSets α}, s'.parent.keys = s₄.parent.keys →
      ∀ z, z ∈ s'.parent ↔ z ∈ s.parent ∨ z = x ∨ z = y := by
    intro s' hk z
    rw [AList.mem_keys, hk, ← AList.mem_keys, hmem]
  rw [← hf₄]
  by_cases he : e = e'
  · -- one root already: `x == y` holds and nothing is linked
    refine ⟨s₄, by simp [merge, hxy, h₁, h₂, h₃, h₄, he], hw₄, hmem, e.1, e.1,
      .inl ⟨hx₄, by rw [hy₄, he]⟩, fun z => ?_⟩
    cases s₄.find z <;> simp
  · by_cases hlt : e.2 < e'.2
    · -- the root of `y` has the higher rank and becomes the parent
      obtain ⟨s', hs', hw', hk', hf'⟩ := link_spec hw₄ hr₄ hr₄' (e'.2 = e.2)
      refine ⟨s', ?_, hw', hmem' hk', e'.1, e.1, .inr ⟨hx₄, hy₄⟩, hf'⟩
      simp only [bind, pure] at hs'
      simpa [merge, hxy, h₁, h₂, h₃, h₄, he, hlt] using hs'
    · obtain ⟨s', hs', hw', hk', hf'⟩ := link_spec hw₄ hr₄' hr₄ (e.2 = e'.2)
      refine ⟨s', ?_, hw', hmem' hk', e.1, e'.1, .inl ⟨hx₄, hy₄⟩, hf'⟩
      simp only [bind, pure] at hs'
      simpa [merge, hxy, h₁, h₂, h₃, h₄, he, hlt] using hs'

/-- The doc test of `in_same_set`. -/
example : ((((empty : DisjointSets ℕ).merge 1 2).bind (·.merge 1 3)).bind (·.merge 2 4)).map
    (fun s => (s.inSameSet 2 3, s.inSameSet 1 4, s.inSameSet 4 5, s.len)) =
      some (true, true, false, 4) := by decide

/-! ### `remove_set_of` -/

/-- **The `retain` of `remove_set_of`** keeps exactly the members whose representative is `r`.
The `find_mut` calls it makes in between never panic and keep the sets.

**Proof sketch.** Induction on the list of keys; each `find_mut` returns the representative
(`findMut_spec`), which is defined on members, and leaves a map with the same `find`. -/
lemma retainLoop_spec (r : α) :
    ∀ (L : List α) {s : DisjointSets α}, s.WellFormed → (∀ y ∈ L, y ∈ s.parent) →
      ∃ s', retainLoop r L s = some (L.filter fun y => s.find y = some r, s') ∧
        SameSets s s' ∧ s'.WellFormed
  | [], s, hw, _ => ⟨s, rfl, .refl s, hw⟩
  | y :: L, s, hw, hL => by
    obtain ⟨s₁, h₁, hs₁, hw₁⟩ := findMut_spec hw y
    obtain ⟨ry, hry⟩ := exists_find hw (hL y List.mem_cons_self)
    have hfind₁ : s₁.find = s.find := hs₁.find_eq hw hw₁
    obtain ⟨s', h', hs', hw'⟩ := retainLoop_spec r L hw₁
      fun z hz => hs₁.mem_iff.mpr (hL z (List.mem_cons_of_mem y hz))
    rw [hfind₁] at h'
    refine ⟨s', ?_, hs₁.trans hs', hw'⟩
    -- the kept list gains `y` exactly when its representative is `r`
    by_cases hyr : ry = r <;> simp [retainLoop, h₁, hry, h', hyr]

/-- The parent links after erasing a list of keys. -/
lemma next_foldl_erase (L : List α) (s : DisjointSets α) :
    (⟨L.foldl (fun m y => m.erase y) s.parent⟩ : DisjointSets α).next =
      fun w => if w ∈ L then none else s.next w := by
  funext w
  simp only [next, AList.lookup_foldl_erase]
  split_ifs <;> rfl

/-- **Erasing one set.** Deleting the keys whose representative is the root `r` keeps the
invariant, and leaves the representatives of every other member. -/
lemma find_erase {s : DisjointSets α} (hw : s.WellFormed) {r : α} {L : List α}
    (hL : ∀ w, w ∈ L ↔ s.find w = some r) :
    (⟨L.foldl (fun m y => m.erase y) s.parent⟩ : DisjointSets α).WellFormed ∧
      ∀ z, (⟨L.foldl (fun m y => m.erase y) s.parent⟩ : DisjointSets α).find z =
        if s.find z = some r then none else s.find z := by
  obtain ⟨h, hr⟩ := hw.ranked
  -- the deleted keys are the nodes of the tree of `r`
  have hD : ∀ w, w ∈ L ↔ ∃ k, RootPath s.next k w r := fun w => (hL w).trans (find_eq_some_iff hw)
  have hn := next_foldl_erase L s
  have hw' : (⟨L.foldl (fun m y => m.erase y) s.parent⟩ : DisjointSets α).WellFormed :=
    ⟨hn ▸ closed_erase (· ∈ L) hD hw.closed, h, hn ▸ ranked_erase (· ∈ L) hr⟩
  refine ⟨hw', fun z => ?_⟩
  cases hf : s.find z with
  | none =>
    rw [if_neg (by simp), find_eq_none_iff hw', ← isSome_next_iff, hn]
    have hz : s.next z = none := next_eq_none_iff.mpr ((find_eq_none_iff hw).mp hf)
    simp [hz]
  | some q =>
    by_cases hqr : q = r
    · rw [if_pos (by rw [hqr]), find_eq_none_iff hw', ← isSome_next_iff, hn]
      simp [(hL z).mpr (hqr ▸ hf)]
    · rw [if_neg (by simpa using hqr), find_eq_some_iff hw']
      obtain ⟨n, hp⟩ := (find_eq_some_iff hw).mp hf
      exact ⟨n, hn ▸ rootPath_erase (· ∈ L) hD hp hqr⟩

/-- **`remove_set_of` removes one set.** It never panics; it returns the members of the set of
`x` (none when `x` is in no set) in strictly increasing order, and leaves a well-formed map in
which exactly those members are gone and every other member keeps its representative.

**Proof sketch.** `find_mut` returns the root `r` of `x`, `retainLoop_spec` shows that the
`retain` keeps the keys whose representative is `r`, `find_erase` describes the map after
the removals, and sorting a list of distinct keys makes it strictly increasing. -/
lemma removeSetOf_spec [LinearOrder α] {s : DisjointSets α} (hw : s.WellFormed) (x : α) :
    ∃ set s', s.removeSetOf x = some (set, s') ∧ s'.WellFormed ∧ set.Pairwise (· < ·) ∧
      (∀ z, z ∈ set ↔ ∃ r, s.find x = some r ∧ s.find z = some r) ∧
      (∀ z, z ∈ s'.parent ↔ z ∈ s.parent ∧ z ∉ set) ∧
      ∀ z, s'.find z = if z ∈ set then none else s.find z := by
  obtain ⟨s₁, h₁, hs₁, hw₁⟩ := findMut_spec hw x
  have hfind₁ : s₁.find = s.find := hs₁.find_eq hw hw₁
  cases hx : s.find x with
  | none =>
    -- `x` is in no set: nothing is removed
    refine ⟨[], s₁, by simp [removeSetOf, h₁, hx], hw₁, List.Pairwise.nil, by simp,
      fun z => by simp [hs₁.mem_iff], fun z => by simp [hfind₁]⟩
  | some r =>
    obtain ⟨s₂, h₂, hs₂, hw₂⟩ := retainLoop_spec r s₁.parent.keys hw₁
      fun y hy => AList.mem_keys.mpr hy
    rw [hfind₁] at h₂
    set kept := s₁.parent.keys.filter fun y => s.find y = some r with hkept
    have hfind₂ : s₂.find = s.find := (hs₂.find_eq hw₁ hw₂).trans hfind₁
    -- the kept keys are the members of the set of `r`
    have hmem : ∀ w, w ∈ kept ↔ s.find w = some r := by
      intro w
      simp only [hkept, List.mem_filter, ← AList.mem_keys, hs₁.mem_iff, decide_eq_true_eq,
        and_iff_right_iff_imp]
      exact mem_of_find hw
    have hnodup : kept.Nodup := s₁.parent.keys_nodup.filter _
    have hsorted : (kept.insertionSort (· ≤ ·)).Pairwise (· < ·) := by
      have hne := (List.perm_insertionSort (· ≤ ·) kept).nodup_iff.mpr hnodup
      exact ((List.pairwise_insertionSort (· ≤ ·) kept).and hne).imp fun ⟨hab, hne⟩ =>
        lt_of_le_of_ne hab hne
    have hmem₂ : ∀ w, w ∈ kept ↔ s₂.find w = some r := fun w => by rw [hfind₂]; exact hmem w
    obtain ⟨hw₃, hf₃⟩ := find_erase hw₂ hmem₂
    refine ⟨_, _, by simp [removeSetOf, h₁, hx, h₂, hkept], hw₃, hsorted, fun z => ?_,
      fun z => ?_, fun z => ?_⟩
    · simp [List.mem_insertionSort, hmem]
    · rw [← isSome_next_iff, next_foldl_erase, List.mem_insertionSort, ← hs₁.mem_iff,
        ← hs₂.mem_iff, ← isSome_next_iff]
      by_cases hz : z ∈ kept <;> simp [hz]
    · rw [hf₃, hfind₂]
      simp only [List.mem_insertionSort, hmem]

/-- The doc test of `remove_set_of`. -/
example : ((((empty : DisjointSets ℕ).merge 1 2).bind (·.merge 1 3)).bind (·.merge 2 4)).bind
    (fun s => (s.removeSetOf 4).bind fun (set, s) => (s.removeSetOf 1).map fun (set', s) =>
      (set, set', s.isEmpty)) = some ([1, 2, 3, 4], [], true) := by decide

end DisjointSets

end Cranelift.Isle
