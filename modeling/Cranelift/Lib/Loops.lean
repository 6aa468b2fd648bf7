import Mathlib.Data.List.Basic

/-!
# Reasoning about loops in `Option`

Invariant rules for the loops of a model written in the `Option` monad, where `none` is a
failure. A fold in `Option` that succeeds ends in a state satisfying every invariant that its
start satisfies and its steps keep; a `mapM` that succeeds returns, at every index, the image of
the element there; every element that a `filterMapM` keeps comes from one of its inputs.

## Main results

* `List.foldlM_option_induction` — the invariant rule of `foldlM` in `Option`.
* `List.getElem?_of_mapM_eq_some`, `List.exists_of_mapM_eq_some`, `List.mem_of_mapM_eq_some`,
  `List.mem_of_filterMapM_eq_some`.
-/

namespace List

variable {α β : Type*}

/-- **The invariant rule of a fold in `Option`**, by induction on the list: each step that
succeeds keeps the invariant. -/
theorem foldlM_option_induction (P : β → Prop) {f : β → α → Option β} :
    ∀ {l : List α} {b r : β}, P b → (∀ b, P b → ∀ a ∈ l, ∀ b', f b a = some b' → P b') →
      l.foldlM f b = some r → P r
  | [], b, r, h₀, _, h => by
    obtain rfl : b = r := by simpa using h
    exact h₀
  | a :: l, b, r, h₀, hstep, h => by
    rw [foldlM_cons, Option.bind_eq_bind, Option.bind_eq_some_iff] at h
    obtain ⟨b', hb', h⟩ := h
    exact foldlM_option_induction P (hstep b h₀ a mem_cons_self b' hb')
      (fun b hb a' ha' => hstep b hb a' (mem_cons_of_mem a ha')) h

/-- A `mapM` in `Option` that succeeds maps each element. -/
theorem getElem?_of_mapM_eq_some {f : α → Option β} :
    ∀ {l : List α} {r : List β}, l.mapM f = some r → ∀ i : ℕ, r[i]? = l[i]?.bind f
  | [], r, h, i => by
    obtain rfl : r = [] := by simpa using h.symm
    simp
  | a :: l, r, h, i => by
    simp only [mapM_cons, Option.bind_eq_bind, Option.bind_eq_some_iff, Option.pure_def,
      Option.some.injEq] at h
    obtain ⟨b, hb, bs, hbs, rfl⟩ := h
    cases i with
    | zero => simp [hb]
    | succ i => simpa using getElem?_of_mapM_eq_some hbs i

/-- A `mapM` in `Option` that succeeds keeps the length. -/
theorem length_of_mapM_eq_some {f : α → Option β} :
    ∀ {l : List α} {r : List β}, l.mapM f = some r → r.length = l.length
  | [], r, h => by
    obtain rfl : r = [] := by simpa using h.symm
    rfl
  | a :: l, r, h => by
    simp only [mapM_cons, Option.bind_eq_bind, Option.bind_eq_some_iff, Option.pure_def,
      Option.some.injEq] at h
    obtain ⟨b, -, bs, hbs, rfl⟩ := h
    simp [length_of_mapM_eq_some hbs]

/-- A `mapM` in `Option` that succeeds succeeds on each element, with an image among its
results. -/
theorem exists_of_mapM_eq_some {f : α → Option β} :
    ∀ {l : List α} {r : List β}, l.mapM f = some r → ∀ a ∈ l, ∃ b ∈ r, f a = some b
  | [], _, _, a, ha => by simp at ha
  | a :: l, r, h, a', ha' => by
    simp only [mapM_cons, Option.bind_eq_bind, Option.bind_eq_some_iff, Option.pure_def,
      Option.some.injEq] at h
    obtain ⟨b, hb, bs, hbs, rfl⟩ := h
    rcases mem_cons.mp ha' with rfl | ha'
    · exact ⟨b, mem_cons_self, hb⟩
    · obtain ⟨b', hb', hfb'⟩ := exists_of_mapM_eq_some hbs a' ha'
      exact ⟨b', mem_cons_of_mem b hb', hfb'⟩

/-- Every result of a `mapM` in `Option` that succeeds is the image of an input. -/
theorem mem_of_mapM_eq_some {f : α → Option β} :
    ∀ {l : List α} {r : List β}, l.mapM f = some r → ∀ b ∈ r, ∃ a ∈ l, f a = some b
  | [], r, h, b, hb => by
    obtain rfl : r = [] := by simpa using h.symm
    simp at hb
  | a :: l, r, h, b, hb => by
    simp only [mapM_cons, Option.bind_eq_bind, Option.bind_eq_some_iff, Option.pure_def,
      Option.some.injEq] at h
    obtain ⟨c, hc, cs, hcs, rfl⟩ := h
    rcases mem_cons.mp hb with rfl | hb
    · exact ⟨a, mem_cons_self, hc⟩
    · obtain ⟨a', ha', hfa'⟩ := mem_of_mapM_eq_some hcs b hb
      exact ⟨a', mem_cons_of_mem a ha', hfa'⟩

/-- Every element that a `filterMapM` in `Option` keeps comes from an input. -/
theorem mem_of_filterMapM_eq_some {f : α → Option (Option β)} :
    ∀ {l : List α} {r : List β}, l.filterMapM f = some r → ∀ b ∈ r, ∃ a ∈ l, f a = some (some b)
  | [], r, h, b, hb => by
    obtain rfl : r = [] := by simpa using h.symm
    simp at hb
  | a :: l, r, h, b, hb => by
    rw [filterMapM_cons] at h
    simp only [Option.bind_eq_bind, Option.bind_eq_some_iff] at h
    obtain ⟨o, ho, h⟩ := h
    cases o with
    | none =>
      obtain ⟨a', ha', hfa'⟩ := mem_of_filterMapM_eq_some h b hb
      exact ⟨a', mem_cons_of_mem a ha', hfa'⟩
    | some c =>
      simp only [Option.pure_def, Option.bind_eq_some_iff, Option.some.injEq] at h
      obtain ⟨r', hr', rfl⟩ := h
      rcases mem_cons.mp hb with rfl | hb
      · exact ⟨a, mem_cons_self, ho⟩
      · obtain ⟨a', ha', hfa'⟩ := mem_of_filterMapM_eq_some hr' b hb
        exact ⟨a', mem_cons_of_mem a ha', hfa'⟩

end List
