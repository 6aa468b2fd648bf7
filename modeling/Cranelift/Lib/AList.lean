import Mathlib.Data.List.AList
import Mathlib.Data.Finset.Basic

/-!
# Association lists as hash maps

`AList` models a hash map with unique keys. Two of the map operations that models of mutable
maps need are not covered by lemmas in Mathlib: updating the value of a present key in place
(`AList.replace`, the model of `HashMap::get_mut`), and deleting a whole list of keys one after
another. This file adds their lookup lemmas.

## Main results

* `AList.lookup_replace_self`, `AList.lookup_replace_ne` — lookups after an in-place update.
* `AList.lookup_foldl_erase` — lookups after erasing a list of keys.
-/

variable {α : Type*} {β : α → Type*} [DecidableEq α]

namespace List

lemma dlookup_kreplace_ne {a a' : α} {b : β a} (h : a' ≠ a) :
    ∀ l : List (Sigma β), (l.kreplace a b).dlookup a' = l.dlookup a'
  | [] => rfl
  | ⟨c, v⟩ :: l => by
    by_cases hac : a = c
    · subst hac
      rw [List.kreplace, List.lookmap_cons_some _ l (if_pos rfl), List.dlookup_cons_ne l ⟨a, b⟩ h,
        List.dlookup_cons_ne l ⟨a, v⟩ h]
    · rw [List.kreplace, List.lookmap_cons_none _ l (if_neg hac), ← List.kreplace]
      by_cases ha'c : a' = c
      · subst ha'c
        rw [List.dlookup_cons_eq, List.dlookup_cons_eq]
      · rw [List.dlookup_cons_ne _ ⟨c, v⟩ ha'c, List.dlookup_cons_ne l ⟨c, v⟩ ha'c,
          List.dlookup_kreplace_ne h l]

lemma dlookup_kreplace_self {a : α} {b : β a} :
    ∀ l : List (Sigma β), a ∈ l.keys → (l.kreplace a b).dlookup a = some b
  | [] => by simp
  | ⟨c, v⟩ :: l => by
    intro hmem
    by_cases hac : a = c
    · subst hac
      rw [List.kreplace, List.lookmap_cons_some _ l (if_pos rfl), List.dlookup_cons_eq]
    · rw [List.kreplace, List.lookmap_cons_none _ l (if_neg hac), ← List.kreplace,
        List.dlookup_cons_ne _ ⟨c, v⟩ hac]
      simp only [List.keys_cons, List.mem_cons, hac, false_or] at hmem
      exact List.dlookup_kreplace_self l hmem

end List

namespace AList

/-- An in-place update of a present key is seen by a lookup of that key. -/
@[simp]
lemma lookup_replace_self {a : α} {b : β a} {s : AList β} (h : a ∈ s) :
    (s.replace a b).lookup a = some b :=
  List.dlookup_kreplace_self _ (mem_keys.mp h)

/-- An in-place update of one key leaves the lookups of every other key alone. -/
@[simp]
lemma lookup_replace_ne {a a' : α} {b : β a} {s : AList β} (h : a' ≠ a) :
    (s.replace a b).lookup a' = s.lookup a' :=
  List.dlookup_kreplace_ne h _

/-- Erasing a list of keys one after another deletes exactly those keys. -/
lemma lookup_foldl_erase (L : List α) (s : AList β) (a : α) :
    (L.foldl (fun s y => s.erase y) s).lookup a = if a ∈ L then none else s.lookup a := by
  induction L generalizing s with
  | nil => simp
  | cons y L ih =>
    rw [List.foldl_cons, ih]
    by_cases hay : a = y
    · subst hay
      simp [lookup_erase]
    · simp [lookup_erase_ne hay, hay]

end AList
