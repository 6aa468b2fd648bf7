import Mathlib.Algebra.Group.Nat.Defs
import Cranelift.Lib.KeyedList

/-!
# Sparse maps

A model of `cranelift/entity/src/sparse.rs`, after Briggs and Torczon, *An efficient
representation for sparse sets*, which the source cites. A `SparseMap<K, V>` keeps its values in
a vector `dense`, each value carrying its key, and a `SecondaryMap<K, u32>` `sparse` from keys to
positions in `dense`. Nothing ever clears `sparse`: `clear`, `pop` and `remove` leave stale
positions behind, and a lookup trusts a position only when the value there has the key.

The parts of `cranelift/entity/src/map.rs` that it uses come with it: `SecondaryMap::get` and the
growing `IndexMut`. A key is its index into the key space (`entity_impl!` keys are `u32`
newtypes), so distinct keys have distinct indices.

Lengths and positions are naturals; `idx as u32` truncates, and the `debug_assert!` of `insert`
that the new position fits in a `u32` is a panic, as in a debug build.

## Main definitions

* `Cranelift.Entity.SecondaryMap` with `get` and `set`, the write through `IndexMut`.
* `Cranelift.Entity.SparseMap` with `get`, `getMut`, `index`, `containsKey`, `insert`, `remove`,
  `pop` and `clear`.
* `Cranelift.Entity.SparseMap.Inv` — the keys in `dense` are distinct, `sparse` holds the
  position of every value of `dense`, and `dense` has at most `2 ^ 32` values.

## Main results

* `Cranelift.Entity.SparseMap.get_eq_lookup` — under the invariant, `get` finds the value that
  `dense` stores under the key, and a stale position is never taken for one.
* `Cranelift.Entity.SparseMap.Inv.insert`, `Inv.remove`, `Inv.pop`, `Inv.clear`, `Inv.getMut` —
  each call keeps the invariant and acts on `dense` as the operation of `KeyedList`.
* `Cranelift.Entity.SparseMap.run_refines_keyedList` — any run from `new`.
-/

namespace Cranelift.Entity

/-- `EntityRef`: a key, with its index into the key space. The index determines the key. -/
class EntityRef (K : Type) where
  index : K → ℕ
  index_injective : Function.Injective index

/-- `entity_impl!`: an entity reference is a `u32`, its index. -/
instance : EntityRef UInt32 := ⟨UInt32.toNat, fun _ _ h => UInt32.toNat_inj.mp h⟩

/-- `SecondaryMap<K, V>`: a vector indexed by keys, reading `default` past its end. -/
structure SecondaryMap (K V : Type) where
  elems : List V
  default : V

namespace SecondaryMap

variable {K V : Type} [EntityRef K]

/-- `with_default`. -/
def withDefault (default : V) : SecondaryMap K V := ⟨[], default⟩

/-- `get`: the element stored for `k`, where the vector reaches it. -/
def get (m : SecondaryMap K V) (k : K) : Option V := m.elems[EntityRef.index k]?

/-- `m[k] = v`: `IndexMut` first grows the vector with `default` up to `k`. -/
def set (m : SecondaryMap K V) (k : K) (v : V) : SecondaryMap K V :=
  let i := EntityRef.index k
  if i < m.elems.length then { m with elems := m.elems.set i v }
  else { m with elems := (m.elems ++ List.replicate (i + 1 - m.elems.length) m.default).set i v }

lemma get_set_self (m : SecondaryMap K V) (k : K) (v : V) : (m.set k v).get k = some v := by
  simp only [set, get]
  split
  · rename_i hlt
    exact List.getElem?_set_self hlt
  · rename_i hle
    apply List.getElem?_set_self
    simp only [List.length_append, List.length_replicate]
    omega

/-- Writing one key leaves what another key reads, where the vector reached it. -/
lemma get_set_of_ne {m : SecondaryMap K V} {k k' : K} (h : k' ≠ k) (v : V) {x : V}
    (hx : m.get k' = some x) : (m.set k v).get k' = some x := by
  have hidx : EntityRef.index k ≠ EntityRef.index k' :=
    fun heq => h (EntityRef.index_injective heq).symm
  have hlt : EntityRef.index k' < m.elems.length := (List.getElem?_eq_some_iff.mp hx).1
  simp only [set, get] at hx ⊢
  split
  · rw [List.getElem?_set_ne hidx]
    exact hx
  · rw [List.getElem?_set_ne hidx, List.getElem?_append_left hlt]
    exact hx

end SecondaryMap

/-- `SparseMapValue<K>`: a value that carries its key. -/
class SparseMapValue (K : outParam Type) (V : Type) where
  key : V → K

/-- Every entity reference is a value standing for itself, the values of a `SparseSet`. -/
instance {T : Type} [EntityRef T] : SparseMapValue T T := ⟨id⟩

/-- `u32::MAX`. -/
def u32Max : ℕ := 2 ^ 32 - 1

/-- `idx as u32`, which truncates. -/
def asU32 (n : ℕ) : ℕ := n % 2 ^ 32

/-- `SparseMap<K, V>`: the positions `sparse`, indexed by key, and the values `dense`. -/
structure SparseMap (K V : Type) where
  sparse : SecondaryMap K ℕ
  dense : List V

namespace SparseMap

variable {K V : Type} [EntityRef K] [DecidableEq K] [SparseMapValue K V]

/-- `new`: `SecondaryMap::new()` reads `u32::default()`, that is `0`, past its end. -/
def new : SparseMap K V := ⟨SecondaryMap.withDefault 0, []⟩

/-- `len`. -/
def len (m : SparseMap K V) : ℕ := m.dense.length

/-- `is_empty`. -/
def isEmpty (m : SparseMap K V) : Bool := m.dense.isEmpty

/-- `clear`: only `dense` is cleared. -/
def clear (m : SparseMap K V) : SparseMap K V := { m with dense := [] }

/-- The lookup that `get`, `get_mut` and `index` share: the position `sparse` holds for `key`,
and the value there, which counts only when it has `key`. -/
def lookupEntry (m : SparseMap K V) (key : K) : Option (ℕ × V) := do
  let idx ← m.sparse.get key
  let entry ← m.dense[idx]?
  if SparseMapValue.key entry = key then some (idx, entry) else none

/-- `get`. -/
def get (m : SparseMap K V) (key : K) : Option V := (m.lookupEntry key).map Prod.snd

/-- `get_mut`: the borrowed value, with the position through which it is written. -/
def getMut (m : SparseMap K V) (key : K) : Option (ℕ × V) := m.lookupEntry key

/-- `index`. -/
def index (m : SparseMap K V) (key : K) : Option ℕ := (m.lookupEntry key).map Prod.fst

/-- `contains_key`. -/
def containsKey (m : SparseMap K V) (key : K) : Bool := (m.get key).isSome

/-- `values`, as a slice. -/
def values (m : SparseMap K V) : List V := m.dense

/-- `insert`: replace the value stored under the key of `value`, or push `value` and point
`sparse` at it. -/
def insert (m : SparseMap K V) (value : V) : Option (Option V × SparseMap K V) :=
  let key := SparseMapValue.key value
  match m.getMut key with
  | some (idx, entry) => some (some entry, { m with dense := m.dense.set idx value })
  | none =>
    let idx := m.dense.length
    if ¬idx ≤ u32Max then none
    else some (none, ⟨m.sparse.set key (asU32 idx), m.dense ++ [value]⟩)

/-- `remove`: pop the last value and, unless it is the one removed, move it into the hole and
repair its position in `sparse`. -/
def remove (m : SparseMap K V) (key : K) : Option (Option V × SparseMap K V) :=
  match m.index key with
  | some idx => do
    let back ← m.dense.getLast?
    let dense := m.dense.dropLast
    if idx = dense.length then return (some back, { m with dense := dense })
    let sparse := m.sparse.set (SparseMapValue.key back) (asU32 idx)
    let entry ← dense[idx]?
    return (some entry, ⟨sparse, dense.set idx back⟩)
  | none => some (none, m)

/-- `pop`: the last value. -/
def pop (m : SparseMap K V) : Option V × SparseMap K V :=
  (m.dense.getLast?, { m with dense := m.dense.dropLast })

/-- A write through `get_mut`: `g` applied to the value stored under `key`, if any. -/
def modify (m : SparseMap K V) (key : K) (g : V → V) : SparseMap K V :=
  match m.getMut key with
  | some (idx, entry) => { m with dense := m.dense.set idx (g entry) }
  | none => m

/-! ### The invariant -/

/-- The invariant of Briggs and Torczon: the keys in `dense` are distinct, `sparse` holds the
position of every value of `dense`, and the positions fit in a `u32`. -/
structure Inv (m : SparseMap K V) : Prop where
  keys_nodup : KeyedList.KeysNodup (SparseMapValue.key : V → K) m.dense
  sparse_index : ∀ i v, m.dense[i]? = some v → m.sparse.get (SparseMapValue.key v) = some i
  length_le : m.dense.length ≤ 2 ^ 32

omit [DecidableEq K] in
lemma Inv.new : (new : SparseMap K V).Inv :=
  ⟨List.nodup_nil, fun i v h => by simp [SparseMap.new] at h, by simp [SparseMap.new]⟩

/-- What the lookup finds is a value of `dense` with the key. -/
lemma lookupEntry_spec {m : SparseMap K V} {k : K} {i : ℕ} {v : V}
    (h : m.lookupEntry k = some (i, v)) : m.dense[i]? = some v ∧ SparseMapValue.key v = k := by
  simp only [lookupEntry, Option.bind_eq_bind, Option.bind_eq_some_iff] at h
  obtain ⟨idx, -, entry, hentry, h⟩ := h
  split at h
  · rename_i hk
    cases h
    exact ⟨hentry, hk⟩
  · cases h

section Inv

variable {m : SparseMap K V} (hm : m.Inv)
include hm

/-- **Every value of `dense` is found under its key.** -/
lemma Inv.lookupEntry_of_getElem? {i : ℕ} {v : V} (h : m.dense[i]? = some v) :
    m.lookupEntry (SparseMapValue.key v) = some (i, v) := by
  simp [lookupEntry, hm.sparse_index i v h, h]

/-- **A stale position is never taken for a value**: the lookup fails exactly for the keys that
no value of `dense` has. -/
lemma Inv.lookupEntry_eq_none_iff {k : K} :
    m.lookupEntry k = none ↔ ∀ v ∈ m.dense, SparseMapValue.key v ≠ k := by
  constructor
  · intro h v hv hk
    obtain ⟨i, hi⟩ := List.mem_iff_getElem?.mp hv
    have hfound := hm.lookupEntry_of_getElem? hi
    rw [hk, h] at hfound
    cases hfound
  · intro h
    cases he : m.lookupEntry k with
    | none => rfl
    | some e =>
      obtain ⟨hi, hk⟩ := lookupEntry_spec he
      exact absurd hk (h _ (List.mem_of_getElem? hi))

/-- **`get` is the lookup in `dense`.** -/
theorem Inv.get_eq_lookup (k : K) : m.get k = KeyedList.lookup SparseMapValue.key m.dense k := by
  cases he : m.lookupEntry k with
  | none =>
    rw [get, he]
    exact (KeyedList.lookup_eq_none_iff.mpr (hm.lookupEntry_eq_none_iff.mp he)).symm
  | some e =>
    obtain ⟨hi, rfl⟩ := lookupEntry_spec he
    rw [get, he, KeyedList.lookup_of_getElem? hm.keys_nodup hi]
    rfl

/-- `index` is the position in `dense`. -/
theorem Inv.index_eq_position (k : K) :
    m.index k = KeyedList.position SparseMapValue.key m.dense k := by
  cases he : m.lookupEntry k with
  | none =>
    rw [index, he]
    exact (KeyedList.position_eq_none_iff.mpr (hm.lookupEntry_eq_none_iff.mp he)).symm
  | some e =>
    obtain ⟨hi, hk⟩ := lookupEntry_spec he
    rw [index, he]
    exact ((KeyedList.position_eq_some_iff hm.keys_nodup).mpr ⟨_, hi, hk⟩).symm

omit [DecidableEq K] in
/-- Replacing a value of `dense` by one with its key keeps the invariant, with `sparse` as it
is. -/
lemma Inv.set {idx : ℕ} {v w : V} (hidx : m.dense[idx]? = some v)
    (hk : SparseMapValue.key w = SparseMapValue.key v) :
    (⟨m.sparse, m.dense.set idx w⟩ : SparseMap K V).Inv := by
  refine ⟨KeyedList.keysNodup_set hm.keys_nodup hidx hk, fun j u hj => ?_,
    by simpa using hm.length_le⟩
  by_cases hji : idx = j
  · subst hji
    rw [List.getElem?_set_self (List.getElem?_eq_some_iff.mp hidx).1, Option.some.injEq] at hj
    subst hj
    rw [hk]
    exact hm.sparse_index idx v hidx
  · rw [List.getElem?_set_ne hji] at hj
    exact hm.sparse_index j u hj

omit [DecidableEq K] in
/-- The prefix `dense.dropLast` keeps the invariant, with `sparse` as it is. -/
lemma Inv.dropLast : (⟨m.sparse, m.dense.dropLast⟩ : SparseMap K V).Inv := by
  refine ⟨KeyedList.keysNodup_dropLast hm.keys_nodup, fun j u hj => ?_, ?_⟩
  · rw [List.getElem?_dropLast] at hj
    split at hj
    · exact hm.sparse_index j u hj
    · cases hj
  · simp only [List.length_dropLast]
    exact Nat.le_trans (Nat.sub_le _ _) hm.length_le

end Inv

/-! ### The calls -/

section Calls

variable {m : SparseMap K V} (hm : m.Inv)
include hm

/-- **`insert` stores the value under its key**, returning the value it replaces; it panics
only when `dense` would outgrow the `u32` positions. -/
theorem Inv.insert (value : V)
    (hlen : (KeyedList.insert SparseMapValue.key m.dense value).length ≤ 2 ^ 32) :
    ∃ m', m.insert value = some (m.get (SparseMapValue.key value), m') ∧ m'.Inv ∧
      m'.dense = KeyedList.insert SparseMapValue.key m.dense value := by
  cases he : m.lookupEntry (SparseMapValue.key value) with
  | some e =>
    -- the key is present: replace the value in place
    obtain ⟨idx, entry⟩ := e
    obtain ⟨hidx, hk⟩ := lookupEntry_spec he
    have hpos : KeyedList.position SparseMapValue.key m.dense (SparseMapValue.key value) =
        some idx := (KeyedList.position_eq_some_iff hm.keys_nodup).mpr ⟨entry, hidx, hk⟩
    exact ⟨{ m with dense := m.dense.set idx value }, by simp [SparseMap.insert, getMut, get, he],
      hm.set hidx hk.symm, by simp [KeyedList.insert, hpos]⟩
  | none =>
    -- a new key: push the value and point `sparse` at it
    have hfresh := hm.lookupEntry_eq_none_iff.mp he
    have hins : KeyedList.insert SparseMapValue.key m.dense value = m.dense ++ [value] := by
      simp [KeyedList.insert, KeyedList.position_eq_none_iff.mpr hfresh]
    rw [hins] at hlen ⊢
    have hlen' : m.dense.length < 2 ^ 32 := by
      simp only [List.length_append, List.length_singleton] at hlen
      omega
    have hle : m.dense.length ≤ u32Max := by
      simp only [u32Max]
      omega
    refine ⟨⟨m.sparse.set (SparseMapValue.key value) (asU32 m.dense.length), m.dense ++ [value]⟩,
      by simp [SparseMap.insert, getMut, get, he, hle], ⟨?_, fun j u hj => ?_, hlen⟩, rfl⟩
    · simpa [hins] using KeyedList.keysNodup_insert hm.keys_nodup value
    · rcases Nat.lt_or_ge j m.dense.length with hj' | hj'
      · rw [List.getElem?_append_left hj'] at hj
        exact SecondaryMap.get_set_of_ne (hfresh u (List.mem_of_getElem? hj)) _
          (hm.sparse_index j u hj)
      · obtain rfl : j = m.dense.length := by
          have := (List.getElem?_eq_some_iff.mp hj).1
          simp only [List.length_append, List.length_singleton] at this
          omega
        rw [List.getElem?_concat_length, Option.some.injEq] at hj
        subst hj
        rw [SecondaryMap.get_set_self, asU32, Nat.mod_eq_of_lt hlen']

/-- **`remove` removes the key**, returning its value: the last value moves into the hole, and
its position in `sparse` follows it. -/
theorem Inv.remove (k : K) :
    ∃ m', m.remove k = some (m.get k, m') ∧ m'.Inv ∧
      m'.dense = KeyedList.remove SparseMapValue.key m.dense k := by
  cases he : m.lookupEntry k with
  | none =>
    have hpos : KeyedList.position SparseMapValue.key m.dense k = none :=
      KeyedList.position_eq_none_iff.mpr (hm.lookupEntry_eq_none_iff.mp he)
    exact ⟨m, by simp [SparseMap.remove, index, get, he], hm, by simp [KeyedList.remove, hpos]⟩
  | some e =>
    obtain ⟨idx, v⟩ := e
    obtain ⟨hidx, hk⟩ := lookupEntry_spec he
    have hpos : KeyedList.position SparseMapValue.key m.dense k = some idx :=
      (KeyedList.position_eq_some_iff hm.keys_nodup).mpr ⟨v, hidx, hk⟩
    obtain ⟨sparse, dense⟩ := m
    rcases List.eq_nil_or_concat dense with rfl | ⟨init, back, rfl⟩
    · cases hidx
    rw [List.concat_eq_append] at *
    have hlt : idx < init.length + 1 := by
      simpa using (List.getElem?_eq_some_iff.mp hidx).1
    by_cases hlast : idx = init.length
    · -- the last value is the one removed
      subst hlast
      rw [List.getElem?_concat_length, Option.some.injEq] at hidx
      subst hidx
      exact ⟨⟨sparse, init⟩, by simp [SparseMap.remove, index, get, he],
        by simpa using hm.dropLast, by simp [KeyedList.remove, KeyedList.swapRemove, hpos]⟩
    · -- the last value moves into the hole
      have hlt' : idx < init.length := by omega
      have hv : init[idx]? = some v := by rwa [List.getElem?_append_left hlt'] at hidx
      have hsize : idx < 2 ^ 32 := by
        have := hm.length_le
        simp only [List.length_append, List.length_singleton] at this
        omega
      have hswap : KeyedList.swapRemove (init ++ [back]) idx = init.set idx back := by
        simp [KeyedList.swapRemove]
        omega
      refine ⟨⟨sparse.set (SparseMapValue.key back) (asU32 idx), init.set idx back⟩,
        by simp [SparseMap.remove, index, get, he, hlast, hv], ⟨?_, fun j u hj => ?_, ?_⟩,
        by simp [KeyedList.remove, hpos, hswap]⟩
      · simpa [hswap] using KeyedList.keysNodup_swapRemove hm.keys_nodup idx
      · by_cases hji : idx = j
        · subst hji
          rw [List.getElem?_set_self hlt', Option.some.injEq] at hj
          subst hj
          rw [SecondaryMap.get_set_self, asU32, Nat.mod_eq_of_lt hsize]
        · rw [List.getElem?_set_ne hji] at hj
          have hu : (init ++ [back])[j]? = some u := by
            rwa [List.getElem?_append_left (List.getElem?_eq_some_iff.mp hj).1]
          exact SecondaryMap.get_set_of_ne
            (KeyedList.key_ne_of_mem_init hm.keys_nodup (List.mem_of_getElem? hj)) _
            (hm.sparse_index j u hu)
      · have := hm.length_le
        simp only [List.length_append, List.length_singleton] at this
        simp only [List.length_set]
        omega

omit [DecidableEq K] in
/-- **`pop` removes the last value.** -/
theorem Inv.pop : m.pop.1 = m.dense.getLast? ∧ m.pop.2.Inv ∧ m.pop.2.dense = m.dense.dropLast :=
  ⟨rfl, hm.dropLast, rfl⟩

omit hm in
omit [DecidableEq K] in
/-- **`clear` empties the map**, whatever `sparse` still holds. -/
theorem Inv.clear : m.clear.Inv :=
  ⟨List.nodup_nil, fun i v h => by simp [SparseMap.clear] at h, by simp [SparseMap.clear]⟩

/-- **A write through `get_mut` that keeps the key** changes the value stored under it. -/
theorem Inv.modify (k : K) {g : V → V}
    (hg : ∀ v, SparseMapValue.key (g v) = (SparseMapValue.key v : K)) :
    (m.modify k g).Inv ∧ (m.modify k g).dense = KeyedList.modify SparseMapValue.key m.dense k g := by
  cases he : m.lookupEntry k with
  | none =>
    have hpos : KeyedList.position SparseMapValue.key m.dense k = none :=
      KeyedList.position_eq_none_iff.mpr (hm.lookupEntry_eq_none_iff.mp he)
    simp only [SparseMap.modify, getMut, he]
    exact ⟨hm, by simp [KeyedList.modify, hpos]⟩
  | some e =>
    obtain ⟨idx, v⟩ := e
    obtain ⟨hidx, hk⟩ := lookupEntry_spec he
    have hpos : KeyedList.position SparseMapValue.key m.dense k = some idx :=
      (KeyedList.position_eq_some_iff hm.keys_nodup).mpr ⟨v, hidx, hk⟩
    obtain ⟨w, hw, -, hset⟩ := KeyedList.modify_eq_set g hm.keys_nodup hpos
    have hwv : w = v := by
      rw [hidx, Option.some.injEq] at hw
      exact hw.symm
    subst hwv
    simp only [SparseMap.modify, getMut, he]
    exact ⟨hm.set hidx (hg w), by simp [KeyedList.modify, hpos, hset]⟩

end Calls

/-! ### Refinement of a keyed list -/

/-- The calls that change a `SparseMap`. `getMut` is a write through `get_mut`, which must keep
the key. -/
inductive Op (K V : Type) [SparseMapValue K V] where
  | insert (value : V)
  | remove (key : K)
  | pop
  | clear
  | getMut (key : K) (g : V → V) (hg : ∀ v, SparseMapValue.key (g v) = SparseMapValue.key v)

/-- A call, keeping the new state. -/
def Op.apply : Op K V → SparseMap K V → Option (SparseMap K V)
  | .insert value, m => (m.insert value).map Prod.snd
  | .remove key, m => (m.remove key).map Prod.snd
  | .pop, m => some m.pop.2
  | .clear, m => some m.clear
  | .getMut key g _, m => some (m.modify key g)

/-- The same call on the values as a keyed list: `pop` drops the last value. -/
def Op.spec : Op K V → List V → List V
  | .insert value, l => KeyedList.insert SparseMapValue.key l value
  | .remove key, l => KeyedList.remove SparseMapValue.key l key
  | .pop, l => l.dropLast
  | .clear, _ => []
  | .getMut key g _, l => KeyedList.modify SparseMapValue.key l key g

/-- The calls one after another. -/
def run (ops : List (Op K V)) (m : SparseMap K V) : Option (SparseMap K V) :=
  ops.foldlM (fun m op => op.apply m) m

/-- The calls on the keyed list. -/
def specRun (ops : List (Op K V)) (l : List V) : List V := ops.foldl (fun l op => op.spec l) l

/-- **Every call keeps the invariant and acts on `dense` as on the keyed list**, as long as
`dense` stays within the `u32` positions. -/
theorem Inv.apply {m : SparseMap K V} (hm : m.Inv) (op : Op K V)
    (hlen : (op.spec m.dense).length ≤ 2 ^ 32) :
    ∃ m', op.apply m = some m' ∧ m'.Inv ∧ m'.dense = op.spec m.dense := by
  cases op with
  | insert value =>
    obtain ⟨m', hins, hm', hd⟩ := hm.insert value hlen
    exact ⟨m', by simp [Op.apply, hins], hm', hd⟩
  | remove key =>
    obtain ⟨m', hrem, hm', hd⟩ := hm.remove key
    exact ⟨m', by simp [Op.apply, hrem], hm', hd⟩
  | pop =>
    obtain ⟨-, hm', hd⟩ := hm.pop
    exact ⟨m.pop.2, rfl, hm', hd⟩
  | clear => exact ⟨m.clear, rfl, Inv.clear, rfl⟩
  | getMut key g hg =>
    obtain ⟨hm', hd⟩ := hm.modify key hg
    exact ⟨m.modify key g, rfl, hm', hd⟩

/-- **Every run keeps the invariant and acts on `dense` as on the keyed list**, by induction on
the calls, as long as no state of the keyed list outgrows the `u32` positions. -/
theorem Inv.run {m : SparseMap K V} (hm : m.Inv) (ops : List (Op K V))
    (hbound : ∀ n ≤ ops.length, (specRun (ops.take n) m.dense).length ≤ 2 ^ 32) :
    ∃ m', run ops m = some m' ∧ m'.Inv ∧ m'.dense = specRun ops m.dense := by
  induction ops generalizing m with
  | nil => exact ⟨m, rfl, hm, rfl⟩
  | cons op ops ih =>
    obtain ⟨m₁, happly, hm₁, hd₁⟩ := hm.apply op (by simpa [specRun] using hbound 1 (by simp))
    have hbound₁ : ∀ n ≤ ops.length, (specRun (ops.take n) m₁.dense).length ≤ 2 ^ 32 := by
      intro n hn
      simpa [specRun, hd₁] using hbound (n + 1) (by simpa using hn)
    obtain ⟨m', hrun, hm', hd'⟩ := ih hm₁ hbound₁
    refine ⟨m', ?_, hm', ?_⟩
    · simp only [SparseMap.run, List.foldlM_cons, happly, Option.bind_eq_bind, Option.bind_some]
      exact hrun
    · rw [hd', hd₁]
      rfl

/-- **`SparseMap` is the keyed list `values()` with a position index.** After any calls from
`new` in which the map never holds more than `2 ^ 32` values, `values()` is the keyed list of the
same calls; its keys are distinct and `sparse` holds the position of each value; and `get`,
`index` and `contains_key` read the keyed list, whatever stale positions `sparse` holds. -/
theorem run_refines_keyedList (ops : List (Op K V))
    (hbound : ∀ n ≤ ops.length, (specRun (ops.take n) []).length ≤ 2 ^ 32) :
    ∃ m, run ops new = some m ∧ m.values = specRun ops [] ∧
      KeyedList.KeysNodup SparseMapValue.key m.values ∧
      (∀ i v, m.values[i]? = some v → m.sparse.get (SparseMapValue.key v) = some i) ∧
      (∀ k, m.get k = KeyedList.lookup SparseMapValue.key (specRun ops []) k) ∧
      (∀ k, m.index k = KeyedList.position SparseMapValue.key (specRun ops []) k) ∧
      ∀ k, m.containsKey k = (KeyedList.lookup SparseMapValue.key (specRun ops []) k).isSome := by
  obtain ⟨m, hrun, hm, hd⟩ := Inv.new.run ops hbound
  have hget : ∀ k, m.get k = KeyedList.lookup SparseMapValue.key (specRun ops []) k := by
    intro k
    rw [hm.get_eq_lookup, hd]
    rfl
  refine ⟨m, hrun, hd, hm.keys_nodup, hm.sparse_index, hget, fun k => ?_, fun k => ?_⟩
  · rw [hm.index_eq_position, hd]
    rfl
  · rw [containsKey, hget]

/-- In a `SparseSet` of `u32` entities, inserting `3` and `5` and removing `3` leaves `5`, and
the position `sparse` still holds for `3` is not taken for it. -/
theorem run_refines_keyedList_sparseSet :
    (∀ n ≤ 3, (specRun (([.insert 3, .insert 5, .remove 3] : List (Op UInt32 UInt32)).take n)
      []).length ≤ 2 ^ 32) ∧
    ∃ m : SparseMap UInt32 UInt32, run [.insert 3, .insert 5, .remove 3] new = some m ∧
      m.values = [5] ∧ m.get 3 = none := by
  have hbound : ∀ n ≤ 3, (specRun (([.insert 3, .insert 5, .remove 3] :
      List (Op UInt32 UInt32)).take n) []).length ≤ 2 ^ 32 := by decide
  obtain ⟨m, hrun, hvalues, -, -, hget, -⟩ :=
    run_refines_keyedList ([.insert 3, .insert 5, .remove 3] : List (Op UInt32 UInt32)) hbound
  exact ⟨hbound, m, hrun, by rw [hvalues]; decide, by rw [hget]; decide⟩

end SparseMap

end Cranelift.Entity
