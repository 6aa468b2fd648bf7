import Mathlib.Algebra.Order.BigOperators.Group.Finset

/-!
# Partial maps into an order of finite height

A partial map `f : α → Option β` into a partial order grows when every value it has is below a
value of the new map: entries are added or raised, never dropped or lowered. When `β` has a
height `h`, strictly monotone and bounded by `H`, the entries of a map over a finite set of keys
`S` carry a potential, the sum over `S` of the rank of each entry (`0` for no entry, `h v + 1`
for the value `v`). A map that grows and changes at a key of `S` has a strictly greater
potential, and every potential is at most `(H + 1) * #S`, so a map can change at most that many
times while it grows: a loop that repeats a growing step until nothing changes stops.

## Main definitions

* `FiniteHeight.OptLe` — one partial value is below another.
* `FiniteHeight.rank`, `FiniteHeight.potential` — the potential of a partial map over a set of
  keys.

## Main results

* `FiniteHeight.rank_lt_of_optLe` — a strictly greater partial value has a greater rank.
* `FiniteHeight.potential_lt` — a map that grows and changes at a key has a greater potential.
* `FiniteHeight.potential_le` — the potential is at most `(H + 1) * #S`.
-/

namespace FiniteHeight

variable {α β : Type*} [PartialOrder β]

/-- `o ≤ o'` for partial values: the value of `o`, when there is one, is below a value of
`o'`. -/
def OptLe (o o' : Option β) : Prop := ∀ v ∈ o, ∃ v' ∈ o', v ≤ v'

@[simp] theorem optLe_none (o : Option β) : OptLe none o := by
  intro v hv
  cases hv

@[simp] theorem optLe_some_none (v : β) : ¬ OptLe (some v) none := by
  intro h
  obtain ⟨v', hv', -⟩ := h v rfl
  cases hv'

@[simp] theorem optLe_some_some {v v' : β} : OptLe (some v) (some v') ↔ v ≤ v' := by
  constructor
  · intro h
    obtain ⟨w, hw, hle⟩ := h v rfl
    cases hw
    exact hle
  · intro hle w hw
    cases hw
    exact ⟨v', rfl, hle⟩

theorem OptLe.refl (o : Option β) : OptLe o o := fun v hv => ⟨v, hv, le_rfl⟩

theorem OptLe.trans {o₁ o₂ o₃ : Option β} (h₁₂ : OptLe o₁ o₂) (h₂₃ : OptLe o₂ o₃) :
    OptLe o₁ o₃ := by
  intro v hv
  obtain ⟨v₂, hv₂, hle₂⟩ := h₁₂ v hv
  obtain ⟨v₃, hv₃, hle₃⟩ := h₂₃ v₂ hv₂
  exact ⟨v₃, hv₃, hle₂.trans hle₃⟩

theorem OptLe.antisymm {o o' : Option β} (h : OptLe o o') (h' : OptLe o' o) : o = o' := by
  cases o <;> cases o'
  case none.none => rfl
  case some.some v v' => rw [le_antisymm (optLe_some_some.mp h) (optLe_some_some.mp h')]
  all_goals simp at h h'

variable (h : β → ℕ)

/-- The rank of a partial value: `0` for no value, and one more than its height for a value. -/
def rank : Option β → ℕ
  | none => 0
  | some v => h v + 1

/-- The potential of a partial map over the keys `S`: the sum of the ranks of its entries. -/
def potential (S : Finset α) (f : α → Option β) : ℕ := ∑ k ∈ S, rank h (f k)

variable {h}

theorem rank_le_of_optLe (hh : Monotone h) {o o' : Option β} (hle : OptLe o o') :
    rank h o ≤ rank h o' := by
  cases o <;> cases o'
  case none.none => exact le_rfl
  case none.some v' => exact Nat.zero_le _
  case some.none v => simp at hle
  case some.some v v' => exact Nat.succ_le_succ (hh (optLe_some_some.mp hle))

/-- **A strictly greater partial value has a greater rank**: an added value, or a value raised
strictly. -/
theorem rank_lt_of_optLe (hh : StrictMono h) {o o' : Option β} (hle : OptLe o o')
    (hne : o ≠ o') : rank h o < rank h o' := by
  cases o <;> cases o'
  case none.none => exact absurd rfl hne
  case none.some v' => exact Nat.succ_pos _
  case some.none v => simp at hle
  case some.some v v' =>
    have hlt : v < v' := lt_of_le_of_ne (optLe_some_some.mp hle) (fun heq => hne (heq ▸ rfl))
    exact Nat.succ_lt_succ (hh hlt)

omit [PartialOrder β] in
theorem rank_le {H : ℕ} (hH : ∀ v, h v ≤ H) (o : Option β) : rank h o ≤ H + 1 := by
  cases o
  case none => exact Nat.zero_le _
  case some v => exact Nat.succ_le_succ (hH v)

omit [PartialOrder β] in
/-- **The potential is bounded** by `(H + 1) * #S` when the height is bounded by `H`. -/
theorem potential_le {H : ℕ} (hH : ∀ v, h v ≤ H) (S : Finset α) (f : α → Option β) :
    potential h S f ≤ (H + 1) * S.card := by
  calc potential h S f ≤ S.card • (H + 1) :=
        Finset.sum_le_card_nsmul S _ _ fun k _ => rank_le hH (f k)
    _ = (H + 1) * S.card := Nat.mul_comm _ _

/-- **A map that grows and changes at a key of `S` has a greater potential over `S`.** -/
theorem potential_lt (hh : StrictMono h) {S : Finset α} {f g : α → Option β}
    (hle : ∀ k, OptLe (f k) (g k)) {k : α} (hk : k ∈ S) (hne : f k ≠ g k) :
    potential h S f < potential h S g :=
  Finset.sum_lt_sum (fun j _ => rank_le_of_optLe hh.monotone (hle j))
    ⟨k, hk, rank_lt_of_optLe hh (hle k) hne⟩

end FiniteHeight
