import Mathlib.Data.Finset.Card
import Mathlib.Logic.Function.Basic

/-!
# Parent-pointer forests

A partial map `next : α → Option α` read as a forest of parent links: `next x = none` when `x`
is not a node, `next x = some x` when `x` is a root, and otherwise `next x = some p` names the
parent of `x`. Union-find structures store such a map, and their `find` loops chase parent links
until a node is its own parent.

Every editing operation of a union-find structure is one of four updates of the map: redirect a
node to its grandparent (path halving), link one root below another (union), add a fresh node as
its own root, or delete whole trees. This file says once what each update does to the roots, so
that a union-find model only has to show that it performs these updates.

## Main definitions

* `ParentForest.RootPath next n x r` — following `n` parent links from `x` reaches the root `r`.
* `ParentForest.Ranked next h` — parent links strictly decrease the ranking `h`.
* `ParentForest.Closed next` — the parent of a node is a node.

## Main results

* `ParentForest.RootPath.unique` — a node has at most one root, at one distance.
* `ParentForest.exists_rootPath` — in a closed ranked forest every node has a root.
* `ParentForest.RootPath.length_lt_card` — a root path is shorter than the number of nodes.
* `ParentForest.rootPath_halve` — redirecting a node to its grandparent keeps every root and
  shortens no path by more than it should.
* `ParentForest.rootPath_link` — linking a root below another root moves its whole tree.
-/

namespace ParentForest

variable {α : Type*}

section Defs

variable (next : α → Option α)

/-- `RootPath next n x r`: following `n` parent links from `x` reaches `r`, and `r` is a root. -/
inductive RootPath : ℕ → α → α → Prop
  | root {x : α} : next x = some x → RootPath 0 x x
  | step {n : ℕ} {x p r : α} : next x = some p → p ≠ x → RootPath n p r → RootPath (n + 1) x r

/-- Every parent link that is not a root's self-link strictly decreases `h`; in particular the
links contain no cycle. -/
def Ranked (h : α → ℕ) : Prop :=
  ∀ x p, next x = some p → p ≠ x → h p < h x

/-- The parent of a node is again a node. -/
def Closed : Prop :=
  ∀ x p, next x = some p → (next p).isSome

end Defs

variable {next : α → Option α} {n m : ℕ} {x r : α}

namespace RootPath

/-- The end of a root path is a root. -/
lemma next_root (hp : RootPath next n x r) : next r = some r := by
  induction hp with
  | root hx => exact hx
  | step _ _ _ ih => exact ih

/-- The start of a root path is a node. -/
lemma isSome (hp : RootPath next n x r) : (next x).isSome := by
  cases hp with
  | root hx => simp [hx]
  | step hx _ _ => simp [hx]

/-- Root paths are determined by their start: the parent links are a function. -/
lemma unique {s : α} (hp : RootPath next n x r) (hq : RootPath next m x s) : n = m ∧ r = s := by
  induction hp generalizing m with
  | root hx =>
    cases hq with
    | root _ => exact ⟨rfl, rfl⟩
    | step hx' hne _ =>
      rw [hx] at hx'
      exact absurd (Option.some_injective _ hx').symm hne
  | step hx hne _ ih =>
    cases hq with
    | root hx' =>
      rw [hx'] at hx
      exact absurd (Option.some_injective _ hx).symm hne
    | step hx' _ hq' =>
      rw [hx] at hx'
      cases Option.some_injective _ hx'
      obtain ⟨rfl, rfl⟩ := ih hq'
      exact ⟨rfl, rfl⟩

/-- Stepping back from a root path: the parent of a non-root has a path one link shorter. -/
lemma of_step {p : α} (hp : RootPath next (n + 1) x r) (hx : next x = some p) :
    RootPath next n p r := by
  cases hp with
  | step hx' _ hq =>
    rw [hx] at hx'
    cases Option.some_injective _ hx'
    exact hq

/-- Along a ranked root path the ranking only decreases. -/
lemma rank_le {h : α → ℕ} (hr : Ranked next h) (hp : RootPath next n x r) : h r ≤ h x := by
  induction hp with
  | root _ => exact le_rfl
  | step hx hne _ ih => exact ih.trans (hr _ _ hx hne).le

/-- A node whose parent lies in the tree of the root `y` lies in that tree itself, and
conversely. -/
lemma parent_iff {w q y : α} (hw : next w = some q) (hne : q ≠ w) :
    (∃ k, RootPath next k w y) ↔ ∃ k, RootPath next k q y := by
  constructor
  · rintro ⟨k, hk⟩
    cases k with
    | zero =>
      cases hk with
      | root hww =>
        rw [hww] at hw
        exact absurd (Option.some_injective _ hw).symm hne
    | succ k => exact ⟨k, hk.of_step hw⟩
  · rintro ⟨k, hk⟩
    exact ⟨k + 1, .step hw hne hk⟩

end RootPath

/-- In a closed ranked forest every node has a root.

**Proof sketch.** Strong induction on the rank of the node: a root is its own root, and the
parent of any other node is a node of smaller rank. -/
lemma exists_rootPath {h : α → ℕ} (hc : Closed next) (hr : Ranked next h) :
    ∀ x, (next x).isSome → ∃ n r, RootPath next n x r := by
  intro x
  induction hx : h x using Nat.strong_induction_on generalizing x with
  | _ k ih =>
    intro hs
    obtain ⟨p, hp⟩ := Option.isSome_iff_exists.mp hs
    by_cases hpx : p = x
    · subst hpx
      exact ⟨0, p, .root hp⟩
    · obtain ⟨n, r, hpath⟩ := ih (h p) (hx ▸ hr x p hp hpx) p rfl (hc x p hp)
      exact ⟨n + 1, r, .step hp hpx hpath⟩

/-- A root path visits distinct nodes of decreasing rank, so it is shorter than the number of
nodes of rank at most that of its start.

**Proof sketch.** Induction on the path. The nodes of rank at most `h p` form a subset of those
of rank at most `h x` that misses `x` itself, so the count grows by one with each link. -/
lemma RootPath.length_lt_card {h : α → ℕ} (hr : Ranked next h) (K : Finset α)
    (hK : ∀ y, (next y).isSome → y ∈ K) (hp : RootPath next n x r) :
    n < (K.filter fun k => h k ≤ h x).card := by
  induction hp with
  | @root y hy =>
    apply Finset.card_pos.mpr
    exact ⟨y, Finset.mem_filter.mpr ⟨hK y (by simp [hy]), le_rfl⟩⟩
  | @step n y p r hy hne _ ih =>
    have hlt : h p < h y := hr y p hy hne
    have hsub : (K.filter fun k => h k ≤ h p) ⊂ K.filter fun k => h k ≤ h y := by
      rw [Finset.ssubset_iff_of_subset]
      · refine ⟨y, Finset.mem_filter.mpr ⟨hK y (by simp [hy]), le_rfl⟩, ?_⟩
        simp only [Finset.mem_filter, not_and, not_le]
        exact fun _ => hlt
      · intro k hk
        simp only [Finset.mem_filter] at hk ⊢
        exact ⟨hk.1, hk.2.trans hlt.le⟩
    have := Finset.card_lt_card hsub
    omega

/-- A root path is shorter than the number of nodes. -/
lemma RootPath.length_lt_card' {h : α → ℕ} (hr : Ranked next h) (K : Finset α)
    (hK : ∀ y, (next y).isSome → y ∈ K) (hp : RootPath next n x r) : n < K.card :=
  (hp.length_lt_card hr K hK).trans_le (Finset.card_filter_le _ _)

/-! ### Updates of the parent map -/

section Updates

variable {next' : α → Option α}

/-- A root path that stays inside a set closed under parent links survives any change of the
map outside that set. -/
lemma RootPath.congr (S : Set α) (hS : ∀ w p, w ∈ S → next w = some p → p ∈ S)
    (hagree : ∀ w ∈ S, next' w = next w) (hz : x ∈ S) (hp : RootPath next n x r) :
    RootPath next' n x r := by
  induction hp with
  | root hx => exact .root ((hagree _ hz).trans hx)
  | step hx hne _ ih => exact .step ((hagree _ hz).trans hx) hne (ih (hS _ _ hz hx))

/-- Root paths of a sub-forest are root paths of the whole forest. -/
lemma RootPath.mono (hsub : ∀ w p, next' w = some p → next w = some p)
    (hp : RootPath next' n x r) : RootPath next n x r := by
  induction hp with
  | root hx => exact .root (hsub _ _ hx)
  | step hx hne _ ih => exact .step (hsub _ _ hx) hne ih

/-- The nodes of rank below `h x` form a set closed under parent links that misses `x`. -/
lemma rank_lt_closed {h : α → ℕ} (hr : Ranked next h) (x : α) :
    ∀ w p, w ∈ {w | h w < h x} → next w = some p → p ∈ {w | h w < h x} := by
  intro w p hw hwp
  by_cases hpw : p = w
  · exact hpw ▸ hw
  · exact (hr w p hwp hpw).trans hw

/-! #### Deleting a whole tree -/

section Erase

variable {c : α} (D : α → Prop) [DecidablePred D] (hD : ∀ w, D w ↔ ∃ k, RootPath next k w c)
include hD

/-- Deleting the tree of `c` leaves the root paths of every other tree in place. -/
lemma rootPath_erase {z : α} (hp : RootPath next n z r) (hrc : r ≠ c) :
    RootPath (fun w => if D w then none else next w) n z r := by
  refine hp.congr {w | ∃ k, RootPath next k w r} ?_ ?_ ⟨n, hp⟩
  · rintro w q ⟨k, hk⟩ hwq
    by_cases hqw : q = w
    · exact ⟨k, hqw ▸ hk⟩
    · cases k with
      | zero =>
        cases hk with
        | root hww =>
          rw [hww] at hwq
          exact absurd (Option.some_injective _ hwq).symm hqw
      | succ k => exact ⟨k, hk.of_step hwq⟩
  · rintro w ⟨k, hk⟩
    have hDw : ¬ D w := by
      rw [hD]
      rintro ⟨k', hk'⟩
      exact hrc (hk.unique hk').2
    simp [hDw]

omit [DecidablePred D] hD in
/-- Deleting nodes keeps the ranking. -/
lemma ranked_erase [DecidablePred D] {h : α → ℕ} (hr : Ranked next h) :
    Ranked (fun w => if D w then none else next w) h := by
  intro w q hw hqw
  by_cases hDw : D w
  · simp [hDw] at hw
  · simp only [hDw, if_false] at hw
    exact hr w q hw hqw

/-- Deleting a whole tree keeps the forest closed. -/
lemma closed_erase (hc : Closed next) : Closed (fun w => if D w then none else next w) := by
  intro w q hw
  by_cases hDw : D w
  · simp [hDw] at hw
  simp only [hDw, if_false] at hw
  have hDq : ¬ D q := by
    rw [hD] at hDw ⊢
    rintro ⟨k, hk⟩
    by_cases hqw : q = w
    · exact hDw ⟨k, hqw ▸ hk⟩
    · exact hDw ⟨k + 1, .step hw hqw hk⟩
  simpa [hDq] using hc w q hw

end Erase

variable [DecidableEq α]

/-! #### Path halving: redirecting a node to its grandparent -/

section Halve

variable {h : α → ℕ} {p g : α} (hr : Ranked next h) (hx : next x = some p) (hg : next p = some g)
include hr hx hg

/-- The grandparent lies strictly below the node unless the node is a root. -/
lemma rank_grandparent_lt (hpx : p ≠ x) : h g < h x := by
  have hp := hr x p hx hpx
  by_cases hgp : g = p
  · exact hgp ▸ hp
  · exact (hr p g hg hgp).trans hp

omit [DecidableEq α] hr in
/-- At a root, the grandparent is the root itself. -/
lemma grandparent_of_root (hpx : p = x) : g = x := by
  rw [← hpx] at hx
  rw [hx] at hg
  exact (Option.some_injective _ hg).symm.trans hpx

/-- Path halving keeps the ranking. -/
lemma ranked_halve : Ranked (Function.update next x (some g)) h := by
  intro w q hw hqw
  by_cases hwx : w = x
  · rw [hwx, Function.update_self, Option.some.injEq] at hw
    rw [hwx, ← hw] at hqw ⊢
    by_cases hpx : p = x
    · exact absurd (grandparent_of_root hx hg hpx) hqw
    · exact rank_grandparent_lt hr hx hg hpx
  · rw [Function.update_of_ne hwx] at hw
    exact hr w q hw hqw

omit hr hx in
/-- Path halving keeps the forest closed. -/
lemma closed_halve (hc : Closed next) : Closed (Function.update next x (some g)) := by
  intro w q hw
  by_cases hqx : q = x
  · simp [hqx]
  rw [Function.update_of_ne hqx]
  by_cases hwx : w = x
  · rw [hwx, Function.update_self, Option.some.injEq] at hw
    rw [← hw]
    exact hc p g hg
  · rw [Function.update_of_ne hwx] at hw
    exact hc w q hw

/-- **Path halving keeps roots.** Every root path of the old map gives a root path, no longer,
to the same root in the halved map.

**Proof sketch.** Induction on the path. Only the link out of `x` changed; the new link jumps to
the grandparent, whose own path lies below `x` in rank and so is untouched by the update. -/
lemma rootPath_halve {z : α} (hp : RootPath next n z r) :
    ∃ k ≤ n, RootPath (Function.update next x (some g)) k z r := by
  induction hp with
  | @root w hw =>
    refine ⟨0, le_rfl, .root ?_⟩
    by_cases hwx : w = x
    · rw [hwx] at hw ⊢
      rw [hx, Option.some.injEq] at hw
      rw [Function.update_self, grandparent_of_root hx hg hw]
    · rwa [Function.update_of_ne hwx]
  | @step k w q s hw hne hq ih =>
    by_cases hwx : w = x
    · rw [hwx] at hw hne
      rw [hx, Option.some.injEq] at hw
      rw [← hw] at hq hne ih
      rw [hwx]
      have hgx : h g < h x := rank_grandparent_lt hr hx hg hne
      by_cases hgp : g = p
      · obtain ⟨k', hk', hq'⟩ := ih
        rw [← hgp] at hq'
        exact ⟨k' + 1, by omega, .step (by simp) (fun e => absurd (e ▸ hgx) (lt_irrefl _)) hq'⟩
      · -- the old path continues from `p` to its parent `g`; the new one jumps there directly
        cases k with
        | zero =>
          cases hq with
          | root hpp =>
            rw [hpp] at hg
            exact absurd (Option.some_injective _ hg).symm hgp
        | succ k'' =>
          have hgs := hq.of_step hg
          refine ⟨k'' + 1, by omega, .step (by simp) (fun e => absurd (e ▸ hgx) (lt_irrefl _)) ?_⟩
          refine hgs.congr {v | h v < h x} (rank_lt_closed hr x) ?_ hgx
          intro v hv
          have hvx : v ≠ x := fun e => by rw [e, Set.mem_ofPred_eq] at hv; exact lt_irrefl _ hv
          exact Function.update_of_ne hvx _ _
    · obtain ⟨k', hk', hq'⟩ := ih
      exact ⟨k' + 1, by omega, .step (by rwa [Function.update_of_ne hwx]) hne hq'⟩

/-- Conversely, every root path of the halved map comes from a root path of the old map. -/
lemma rootPath_of_halve {z : α} (hp : RootPath (Function.update next x (some g)) n z r) :
    ∃ k, RootPath next k z r := by
  induction hp with
  | @root w hw =>
    by_cases hwx : w = x
    · rw [hwx, Function.update_self, Option.some.injEq] at hw
      rw [hwx]
      by_cases hpx : p = x
      · exact ⟨0, .root (hpx ▸ hx)⟩
      · exact absurd (hw ▸ rank_grandparent_lt hr hx hg hpx) (lt_irrefl _)
    · rw [Function.update_of_ne hwx] at hw
      exact ⟨0, .root hw⟩
  | @step k w q s hw hne _ ih =>
    obtain ⟨k', hq'⟩ := ih
    by_cases hwx : w = x
    · rw [hwx, Function.update_self, Option.some.injEq] at hw
      rw [hwx] at hne ⊢
      rw [← hw] at hq' hne
      have hpx : p ≠ x := fun e => hne (grandparent_of_root hx hg e)
      by_cases hgp : g = p
      · rw [hgp] at hq'
        exact ⟨k' + 1, .step hx hpx hq'⟩
      · exact ⟨k' + 2, .step hx hpx (.step hg hgp hq')⟩
    · rw [Function.update_of_ne hwx] at hw
      exact ⟨k' + 1, .step hw hne hq'⟩

end Halve

/-! #### Linking one root below another -/

section Link

variable {y : α} (hxr : next x = some x) (hyr : next y = some y) (hxy : x ≠ y)
include hxr hyr hxy

/-- **Linking moves a whole tree.** After linking the root `y` below the root `x`, every node
whose root was `y` reaches `x` by one more link, and every other node keeps its path.

**Proof sketch.** Induction on the path: only `y`'s self-link changed, and `y` occurs on a path
only as its last node. -/
lemma rootPath_link {z : α} (hp : RootPath next n z r) :
    RootPath (Function.update next y (some x)) (if r = y then n + 1 else n) z
      (if r = y then x else r) := by
  induction hp with
  | @root w hw =>
    by_cases hwy : w = y
    · rw [if_pos hwy, if_pos hwy, hwy]
      exact .step (by simp) hxy (.root (by rw [Function.update_of_ne hxy]; exact hxr))
    · rw [if_neg hwy, if_neg hwy]
      exact .root (by rw [Function.update_of_ne hwy]; exact hw)
  | @step k w q s hw hne _ ih =>
    have hwy : w ≠ y := by
      intro e
      rw [e, hyr] at hw
      exact hne (by rw [e]; exact (Option.some_injective _ hw).symm)
    split_ifs at ih ⊢ <;> exact .step (by rwa [Function.update_of_ne hwy]) hne ih

/-- Linking keeps some ranking: the tree of `y` is lifted above `x`. -/
lemma ranked_link {h : α → ℕ} (hr : Ranked next h) :
    ∃ h', Ranked (Function.update next y (some x)) h' := by
  classical
  refine ⟨fun w => if ∃ k, RootPath next k w y then h w + h x + 1 else h w, ?_⟩
  intro w q hw hqw
  by_cases hwy : w = y
  · rw [hwy, Function.update_self, Option.some.injEq] at hw
    have hxn : ¬ ∃ k, RootPath next k x y := by
      rintro ⟨k, hk⟩
      exact hxy ((RootPath.root hxr).unique hk).2
    have hyy : ∃ k, RootPath next k y y := ⟨0, .root hyr⟩
    rw [← hw, hwy]
    simp only [if_neg hxn, if_pos hyy]
    omega
  · rw [Function.update_of_ne hwy] at hw
    have hlt := hr w q hw hqw
    simp only [RootPath.parent_iff hw hqw]
    split_ifs <;> omega

omit hyr hxy in
/-- Linking keeps the forest closed. -/
lemma closed_link (hc : Closed next) : Closed (Function.update next y (some x)) := by
  intro w q hw
  by_cases hqy : q = y
  · simp [hqy]
  rw [Function.update_of_ne hqy]
  by_cases hwy : w = y
  · rw [hwy, Function.update_self, Option.some.injEq] at hw
    simp [← hw, hxr]
  · rw [Function.update_of_ne hwy] at hw
    exact hc w q hw

end Link

/-! #### Adding a fresh root -/

section Insert

variable (hc : Closed next) (hfresh : next x = none)
include hc hfresh

/-- A fresh root leaves every old root path in place. -/
lemma rootPath_insert {z : α} (hp : RootPath next n z r) :
    RootPath (Function.update next x (some x)) n z r := by
  refine hp.congr {w | (next w).isSome} (fun w p _ hwp => hc w p hwp) ?_ hp.isSome
  intro w hw
  have hwx : w ≠ x := by
    intro e
    rw [Set.mem_ofPred_eq, e, hfresh] at hw
    exact absurd hw (by simp)
  exact Function.update_of_ne hwx _ _

omit hc hfresh in
/-- A fresh root keeps the ranking. -/
lemma ranked_insert {h : α → ℕ} (hr : Ranked next h) :
    Ranked (Function.update next x (some x)) h := by
  intro w q hw hqw
  by_cases hwx : w = x
  · rw [hwx, Function.update_self, Option.some.injEq] at hw
    exact absurd (hw.symm.trans hwx.symm) hqw
  · rw [Function.update_of_ne hwx] at hw
    exact hr w q hw hqw

omit hfresh in
/-- A fresh root keeps the forest closed. -/
lemma closed_insert : Closed (Function.update next x (some x)) := by
  intro w q hw
  by_cases hqx : q = x
  · simp [hqx]
  rw [Function.update_of_ne hqx]
  by_cases hwx : w = x
  · rw [hwx, Function.update_self, Option.some.injEq] at hw
    exact absurd hw.symm hqx
  · rw [Function.update_of_ne hwx] at hw
    exact hc w q hw

end Insert

end Updates

end ParentForest
