import Mathlib.Data.List.Nodup

/-!
# Lists of values that carry their keys

A list whose values each carry a key, `key : V → K`, is a finite map when the keys are distinct:
`lookup` finds the value stored under a key. The map operations keep the values in the order a
vector keeps them: `insert` replaces a value in place or appends it, `remove` moves the last
value into the hole, `List.dropLast` drops the last value, and `modify` changes a value in place.
`insert`, `swapRemove` and `List.dropLast` keep the keys distinct.

## Main definitions

* `KeyedList.KeysNodup`, `KeyedList.position`, `KeyedList.lookup`.
* `KeyedList.insert`, `KeyedList.swapRemove`, `KeyedList.remove`, `KeyedList.modify`.

## Main results

* `KeyedList.lookup_eq_some_iff`, `KeyedList.position_eq_some_iff` — with distinct keys, the
  value and the index stored under a key.
* `KeyedList.keysNodup_insert`, `keysNodup_swapRemove`, `keysNodup_dropLast` — the operations keep
  the keys distinct.
-/

namespace KeyedList

variable {K V : Type*} (key : V → K)

/-- The keys are pairwise distinct. -/
def KeysNodup (l : List V) : Prop := (l.map key).Nodup

section KeysNodup

variable {key} {l : List V} {i j : ℕ} {v w : V}

/-- With distinct keys, the values at two indices have one key only if the indices are one. -/
lemma eq_of_getElem? (h : KeysNodup key l) (hi : l[i]? = some v) (hj : l[j]? = some w)
    (hk : key v = key w) : i = j := by
  have hlt : i < (l.map key).length := by
    rw [List.length_map]
    exact (List.getElem?_eq_some_iff.mp hi).1
  have hkeys : (l.map key)[i]? = (l.map key)[j]? := by simp [hi, hj, hk]
  exact (List.getElem?_inj hlt h).mp hkeys

/-- Replacing a value by one with its key keeps the keys. -/
lemma keysNodup_set (h : KeysNodup key l) (hi : l[i]? = some v) (hk : key w = key v) :
    KeysNodup key (l.set i w) := by
  obtain ⟨hi', rfl⟩ := List.getElem?_eq_some_iff.mp hi
  have hkeys : (l.set i w).map key = l.map key := by
    rw [List.map_set, hk, ← List.map_set, List.set_getElem_self]
  rw [KeysNodup, hkeys]
  exact h

lemma keysNodup_dropLast (h : KeysNodup key l) : KeysNodup key l.dropLast :=
  h.sublist ((List.dropLast_sublist l).map key)

/-- The key of the last value is none of the others. -/
lemma key_ne_of_mem_init {init : List V} {back u : V} (h : KeysNodup key (init ++ [back]))
    (hu : u ∈ init) : key u ≠ key back := by
  rw [KeysNodup, List.map_append, List.map_singleton, List.nodup_append] at h
  exact h.2.2 _ (List.mem_map_of_mem hu) _ (List.mem_singleton_self _)

end KeysNodup

variable [DecidableEq K]

/-- The index of the value stored under `k`. -/
def position (l : List V) (k : K) : Option ℕ := l.findIdx? fun v => key v = k

/-- The value stored under `k`. -/
def lookup (l : List V) (k : K) : Option V := l.find? fun v => key v = k

/-- Store `v` under its key: in place of the value there, or at the end. -/
def insert (l : List V) (v : V) : List V :=
  match position key l (key v) with
  | some i => l.set i v
  | none => l ++ [v]

/-- Remove the value at `i`, moving the last value into its place. -/
def swapRemove (l : List V) (i : ℕ) : List V :=
  match l.getLast? with
  | some back => if i + 1 = l.length then l.dropLast else l.dropLast.set i back
  | none => l

/-- Remove the value stored under `k`. -/
def remove (l : List V) (k : K) : List V :=
  match position key l k with
  | some i => swapRemove l i
  | none => l

/-- Apply `g` to the value stored under `k`. -/
def modify (l : List V) (k : K) (g : V → V) : List V :=
  match position key l k with
  | some i => l.modify i g
  | none => l

variable {key}

section Lookup

variable {l : List V} {k : K} {i j : ℕ} {v w : V}

lemma lookup_eq_some_iff (h : KeysNodup key l) : lookup key l k = some v ↔ v ∈ l ∧ key v = k := by
  constructor
  · intro hv
    exact ⟨List.mem_of_find?_eq_some hv, by simpa using List.find?_some hv⟩
  · rintro ⟨hv, rfl⟩
    obtain ⟨w, hw⟩ : ∃ w, lookup key l (key v) = some w :=
      Option.isSome_iff_exists.mp (List.find?_isSome.mpr ⟨v, hv, by simp⟩)
    have hwl : w ∈ l := List.mem_of_find?_eq_some hw
    have hkw : key w = key v := by simpa using List.find?_some hw
    rw [hw, List.inj_on_of_nodup_map h hwl hv hkw]

lemma lookup_eq_none_iff : lookup key l k = none ↔ ∀ v ∈ l, key v ≠ k := by
  simp [lookup, List.find?_eq_none]

lemma lookup_of_getElem? (h : KeysNodup key l) (hi : l[i]? = some v) :
    lookup key l (key v) = some v :=
  (lookup_eq_some_iff h).mpr ⟨List.mem_of_getElem? hi, rfl⟩

lemma position_eq_some_iff (h : KeysNodup key l) :
    position key l k = some i ↔ ∃ v, l[i]? = some v ∧ key v = k := by
  rw [position, List.findIdx?_eq_some_iff_getElem]
  constructor
  · rintro ⟨hi, hk, -⟩
    exact ⟨l[i], List.getElem?_eq_getElem hi, by simpa using hk⟩
  · rintro ⟨v, hv, rfl⟩
    obtain ⟨hi, rfl⟩ := List.getElem?_eq_some_iff.mp hv
    refine ⟨hi, by simp, fun j hji hj => ?_⟩
    -- an earlier index with the key would be the same index
    have hk : key l[j] = key l[i] := by simpa using hj
    have := eq_of_getElem? h (List.getElem?_eq_getElem (Nat.lt_trans hji hi)) hv hk
    omega

lemma position_eq_none_iff : position key l k = none ↔ ∀ v ∈ l, key v ≠ k := by
  simp [position, List.findIdx?_eq_none_iff]

end Lookup

/-! ### The operations -/

section Operations

variable {l : List V} {k : K} {i : ℕ} {v : V}

lemma keysNodup_insert (h : KeysNodup key l) (v : V) : KeysNodup key (insert key l v) := by
  unfold insert
  split
  · rename_i i hi
    obtain ⟨u, hu, hk⟩ := (position_eq_some_iff h).mp hi
    exact keysNodup_set h hu hk.symm
  · rename_i hnone
    rw [KeysNodup, List.map_append, List.map_singleton, List.nodup_append]
    refine ⟨h, List.nodup_singleton _, fun a ha b hb => ?_⟩
    rw [List.mem_singleton] at hb
    subst hb
    obtain ⟨u, hu, rfl⟩ := List.mem_map.mp ha
    exact position_eq_none_iff.mp hnone u hu


omit [DecidableEq K] in
lemma keysNodup_swapRemove (h : KeysNodup key l) (i : ℕ) : KeysNodup key (swapRemove l i) := by
  rcases List.eq_nil_or_concat l with rfl | ⟨init, back, rfl⟩
  · exact h
  · rw [List.concat_eq_append] at h ⊢
    have hinit : KeysNodup key init := h.sublist ((List.sublist_append_left init [back]).map key)
    simp only [swapRemove, List.getLast?_concat, List.dropLast_concat]
    split
    · exact hinit
    · rw [KeysNodup, List.map_set]
      refine List.Nodup.set hinit fun hmem => ?_
      obtain ⟨u, hu, hku⟩ := List.mem_map.mp hmem
      exact key_ne_of_mem_init h hu hku

section Modify

lemma modify_eq_set (g : V → V) (h : KeysNodup key l) {k : K} (hi : position key l k = some i) :
    ∃ v, l[i]? = some v ∧ key v = k ∧ l.modify i g = l.set i (g v) := by
  obtain ⟨v, hv, hk⟩ := (position_eq_some_iff h).mp hi
  exact ⟨v, hv, hk, by simp [List.modify_eq_set_getElem?, hv]⟩

variable {g : V → V} (hg : ∀ v, key (g v) = key v)
include hg

end Modify

end Operations

end KeyedList
