import Cranelift.Lib.Loops
import Cranelift.Veri.Expand

/-!
# What chaining does to the constructor calls of an expansion

The termination of the expander rests on one fact about `Application`: chaining a call of a
term `t` keeps or deletes each call the expansion had, deletes the chained call, and adds only
calls of terms that the bindings of the rule set of `t` call. This module proves it in two
halves, one per phase of `Application`:

* importing (`rule`, `negation`, and the `add_binding` they are made of) only appends bindings,
  each a renamed binding of the rule set (`Grows`);
* `build`'s substitutions rename and delete, keeping the length and the called term of every
  binding that is not deleted (`Shrinks`), and the first of them deletes the call site.

## Main definitions

* `Cranelift.Veri.Expansion.callAt` — the term called by the binding at an id.
* `Cranelift.Veri.Grows`, `Cranelift.Veri.Shrinks`, `Cranelift.Veri.Chained`.

## Main results

* `Cranelift.Veri.Application.rule_grows`, `Cranelift.Veri.Application.negation_grows`.
* `Cranelift.Veri.Application.build_shrinks` — `build` deletes the call site.
* `Cranelift.Veri.Chained.of_rule` — the three together.
-/

namespace Cranelift.Veri

open Isle TrieAgain
open Sema (TermId)

/-- The term a binding calls as a constructor. -/
def constructorTerm : Binding → Option TermId
  | .constructor term _ _ => some term
  | _ => none

/-- Renaming the sources of a binding keeps the term it calls. -/
lemma Reindex.constructorTerm_binding {r : Reindex} {b b' : Binding} (h : r.binding b = some b') :
    constructorTerm b' = constructorTerm b := by
  cases b <;> simp [Reindex.binding] at h <;> subst h <;> rfl

namespace Expansion

/-- The term called by the binding at `i`, if it is a constructor call. -/
def callAt (e : Expansion) (i : BindingId) : Option TermId := (e.binding i).bind constructorTerm

lemma callAt_eq (e : Expansion) (i : BindingId) :
    e.callAt i = (e.bindings[i]?).bind fun b => b.bind constructorTerm := by
  unfold callAt binding
  cases e.bindings[i]? <;> rfl

lemma callAt_of_length_le {e : Expansion} {i : BindingId} (h : e.bindings.length ≤ i) :
    e.callAt i = none := by
  simp [callAt_eq, List.getElem?_eq_none h]

/-- The constructor calls that `constructor_bindings` lists are those of `callAt`. -/
lemma mem_constructorBindings {e : Expansion} {i : BindingId} {t : TermId} :
    (i, t) ∈ e.constructorBindings ↔ e.callAt i = some t := by
  simp only [constructorBindings, List.mem_filterMap, callAt_eq]
  constructor
  · rintro ⟨⟨b, j⟩, hmem, hb⟩
    rw [List.mem_zipIdx_iff_getElem?] at hmem
    split at hb
    · simp only [Option.some.injEq, Prod.mk.injEq] at hb
      obtain ⟨rfl, rfl⟩ := hb
      simp_all [constructorTerm]
    · simp at hb
  · intro h
    obtain ⟨b, hb, hbt⟩ := Option.bind_eq_some_iff.mp h
    obtain ⟨b, rfl, hc⟩ := Option.bind_eq_some_iff.mp hbt
    cases b <;> simp [constructorTerm] at hc
    subst hc
    exact ⟨(some (.constructor _ _ _), i), List.mem_zipIdx_iff_getElem?.mpr hb, rfl⟩

end Expansion

/-! ### Importing appends bindings -/

/-- `e'` extends the bindings of `e`, and each call it adds calls a term that a binding of
`ruleSet` calls. -/
def Grows (ruleSet : RuleSet) (e e' : Expansion) : Prop :=
  e.bindings <+: e'.bindings ∧ ∀ i, e.bindings.length ≤ i → ∀ u, e'.callAt i = some u →
    ∃ b ∈ ruleSet.bindings, constructorTerm b = some u

namespace Grows

variable {ruleSet : RuleSet} {e e' e'' : Expansion}

lemma callAt_eq (h : e.bindings <+: e'.bindings) {i : BindingId} (hi : i < e.bindings.length) :
    e'.callAt i = e.callAt i := by
  obtain ⟨t, ht⟩ := h
  rw [Expansion.callAt_eq, Expansion.callAt_eq, ← ht, List.getElem?_append_left hi]

lemma of_bindings_eq (h : e'.bindings = e.bindings) : Grows ruleSet e e' :=
  ⟨h ▸ List.prefix_refl _, fun i hi u hu => by
    rw [Expansion.callAt_of_length_le (h ▸ hi)] at hu
    cases hu⟩

@[refl] lemma refl (e : Expansion) : Grows ruleSet e e := of_bindings_eq rfl

@[trans] lemma trans (h₁ : Grows ruleSet e e') (h₂ : Grows ruleSet e' e'') :
    Grows ruleSet e e'' := by
  refine ⟨h₁.1.trans h₂.1, fun i hi u hu => ?_⟩
  by_cases hi' : i < e'.bindings.length
  · rw [callAt_eq h₂.1 hi'] at hu
    exact h₁.2 i hi u hu
  · exact h₂.2 i (Nat.le_of_not_lt hi') u hu

/-- Appending a binding that calls what some binding of the rule set calls. -/
lemma pushBinding {b : Binding} {id : BindingId} (h : e.pushBinding b = some (id, e'))
    (hb : ∀ u, constructorTerm b = some u → ∃ b' ∈ ruleSet.bindings, constructorTerm b' = some u) :
    Grows ruleSet e e' := by
  simp only [Expansion.pushBinding, Option.bind_eq_bind, Option.bind_eq_some_iff,
    Option.pure_def, Option.some.injEq, Prod.mk.injEq] at h
  obtain ⟨_, -, -, rfl⟩ := h
  refine ⟨List.prefix_append _ _, fun i hi u hu => hb u ?_⟩
  rw [Expansion.callAt_eq] at hu
  rcases Nat.lt_or_ge i (e.bindings.length + 1) with hlt | hge
  · obtain rfl : i = e.bindings.length := by omega
    simpa using hu
  · have hlen : (e.bindings ++ [some b]).length ≤ i := by simpa using hge
    simp [List.getElem?_eq_none hlen] at hu

end Grows

namespace Application

variable {ruleSet : RuleSet}

/-- **`add_binding` only appends renamed bindings of the rule set**, and records no
substitution.

**Proof sketch.** By induction on the fuel: the sources are imported first, each by the
induction hypothesis, then the binding itself is pushed, renamed, which keeps its term. -/
theorem addBinding_grows : ∀ (fuel : ℕ) (bindingId : BindingId) (a a' : Application)
    (id : BindingId), addBinding ruleSet fuel bindingId a = some (id, a') →
      Grows ruleSet a.expansion a'.expansion ∧ a'.substitutions = a.substitutions
  | 0, _, _, _, _, h => by simp [addBinding] at h
  | fuel + 1, bindingId, a, a', id, h => by
    unfold addBinding at h
    split at h
    · simp only [Option.some.injEq, Prod.mk.injEq] at h
      obtain ⟨-, rfl⟩ := h
      exact ⟨.refl _, rfl⟩
    simp only [Option.bind_eq_bind, Option.bind_eq_some_iff, Option.pure_def,
      Option.some.injEq] at h
    obtain ⟨binding, hbinding, a₁, ha₁, reindexed, hre, ⟨id', e'⟩, hpush, h⟩ := h
    obtain ⟨-, rfl⟩ := Prod.mk.inj h
    -- the sources, imported one after the other
    have hsrc : Grows ruleSet a.expansion a₁.expansion ∧ a₁.substitutions = a.substitutions :=
      List.foldlM_option_induction
        (fun a₁ => Grows ruleSet a.expansion a₁.expansion ∧ a₁.substitutions = a.substitutions)
        ⟨.refl _, rfl⟩
        (fun a₂ ⟨h₂, hs₂⟩ source _ a₃ h₃ => by
          obtain ⟨⟨id₃, a₃'⟩, h₃', rfl⟩ := Option.map_eq_some_iff.mp h₃
          have ih := addBinding_grows fuel source a₂ a₃' id₃ h₃'
          exact ⟨h₂.trans ih.1, ih.2.trans hs₂⟩)
        ha₁
    refine ⟨hsrc.1.trans (Grows.pushBinding hpush fun u hu => ⟨binding, ?_, ?_⟩), hsrc.2⟩
    · exact List.mem_of_getElem? hbinding
    · rw [← Reindex.constructorTerm_binding hre, hu]

/-- Importing a binding, as the loops of `rule` and `negation` do. -/
lemma addBinding_snd_grows {fuel : ℕ} {bindingId : BindingId} {a a' : Application}
    (h : (addBinding ruleSet fuel bindingId a).map Prod.snd = some a') :
    Grows ruleSet a.expansion a'.expansion := by
  obtain ⟨⟨id, a''⟩, h', rfl⟩ := Option.map_eq_some_iff.mp h
  exact (addBinding_grows fuel bindingId a a'' id h').1

lemma argsLoop_grows {fuel : ℕ} :
    ∀ (i : ℕ) (parameters : List BindingId) (a a' : Application),
      argsLoop ruleSet fuel i parameters a = some a' → Grows ruleSet a.expansion a'.expansion
  | _, [], a, a', h => by
    simp only [argsLoop, Option.some.injEq] at h
    subst h
    rfl
  | i, parameter :: parameters, a, a', h => by
    simp only [argsLoop, Option.bind_eq_bind, Option.bind_eq_some_iff] at h
    obtain ⟨_, -, _, -, ⟨id, a₁⟩, h₁, h⟩ := h
    have ih := argsLoop_grows (i + 1) parameters
      { a₁ with substitutions := a₁.substitutions ++ [(id, parameter)] } a' h
    exact (addBinding_grows fuel _ a a₁ id h₁).1.trans ih

lemma constraintsLoop_grows {fuel : ℕ} {rule : Rule} {a a' : Application} {i : ℕ}
    (h : constraintsLoop ruleSet fuel rule a i = some a') :
    Grows ruleSet a.expansion a'.expansion := by
  unfold constraintsLoop at h
  split at h
  · simp only [Option.bind_eq_bind, Option.bind_eq_some_iff, Option.pure_def,
      Option.some.injEq] at h
    obtain ⟨⟨id, a₁⟩, h₁, rfl⟩ := h
    exact (addBinding_grows fuel i a a₁ id h₁).1.trans (.of_bindings_eq rfl)
  · cases h
    rfl

lemma equalsLoop_grows {fuel : ℕ} {rule : Rule} {a a' : Application} {i : ℕ}
    (h : equalsLoop ruleSet fuel rule a i = some a') :
    Grows ruleSet a.expansion a'.expansion := by
  unfold equalsLoop at h
  split at h
  · split at h
    · simp only [Option.bind_eq_bind, Option.bind_eq_some_iff, Option.pure_def,
        Option.some.injEq] at h
      obtain ⟨⟨x, a₁⟩, h₁, ⟨y, a₂⟩, h₂, _, -, rfl⟩ := h
      exact (addBinding_grows fuel _ a a₁ x h₁).1.trans
        ((addBinding_grows fuel _ a₁ a₂ y h₂).1.trans (.of_bindings_eq rfl))
    · cases h
      rfl
  · cases h
    rfl

/-- A fold of steps that each grow the expansion grows it. -/
lemma foldlM_grows {γ : Type} {f : Application → γ → Option Application} {l : List γ}
    {a a' : Application} (hf : ∀ a₁ c a₂, f a₁ c = some a₂ → Grows ruleSet a₁.expansion a₂.expansion)
    (h : l.foldlM f a = some a') : Grows ruleSet a.expansion a'.expansion :=
  List.foldlM_option_induction (fun a₁ => Grows ruleSet a.expansion a₁.expansion) (.refl _)
    (fun a₁ h₁ c _ a₂ h₂ => h₁.trans (hf a₁ c a₂ h₂)) h

/-- **`rule` only appends renamed bindings, and substitutes the result for the call site
last.** -/
theorem rule_grows {a a' : Application} {rule : Rule} {parameters : List BindingId}
    {callSite : BindingId} (h : a.rule ruleSet rule parameters callSite = some a') :
    Grows ruleSet a.expansion a'.expansion ∧
      ∃ result, a'.substitutions.getLast? = some (callSite, result) := by
  simp only [Application.rule, Option.bind_eq_bind, Option.bind_eq_some_iff, Option.pure_def,
    Option.some.injEq] at h
  obtain ⟨a₁, h₁, a₂, h₂, a₃, h₃, a₄, h₄, ⟨result, a₅⟩, h₅, rfl⟩ := h
  refine ⟨?_, result, by simp⟩
  -- the stages of `rule`: arguments, constraints, equalities, impure calls, the result
  have hargs := argsLoop_grows 0 parameters _ a₁ h₁
  have hconstraints := foldlM_grows (fun _ _ _ => constraintsLoop_grows) h₂
  have hequals := foldlM_grows (fun _ _ _ => equalsLoop_grows) h₃
  have himpure := foldlM_grows (fun _ _ _ => addBinding_snd_grows) h₄
  have hresult := (addBinding_grows _ _ a₄ a₅ result h₅).1
  exact hargs.trans (hconstraints.trans (hequals.trans (himpure.trans
    (hresult.trans (.of_bindings_eq rfl)))))

/-- **`negation` only appends renamed bindings, and adds no substitution.** -/
theorem negation_grows {a a' : Application} {rule : Rule}
    (h : a.negation ruleSet rule = some a') :
    Grows ruleSet a.expansion a'.expansion ∧ a'.substitutions = a.substitutions := by
  simp only [Application.negation, Option.bind_eq_bind, Option.bind_eq_some_iff,
    Option.pure_def, Option.some.injEq] at h
  obtain ⟨⟨cs, a₁⟩, h₁, rfl⟩ := h
  -- the fold carries the constraints collected so far next to the application
  have := List.foldlM_option_induction
    (fun p : List Constrain × Application =>
      Grows ruleSet a.expansion p.2.expansion ∧ p.2.substitutions = a.substitutions)
    ⟨.of_bindings_eq rfl, rfl⟩
    (fun ⟨cs₁, a₂⟩ ⟨h₂, hs₂⟩ i _ ⟨cs₃, a₃⟩ h₃ => by
      dsimp only at h₃ ⊢
      split at h₃
      · simp only [Option.bind_eq_some_iff, Option.some.injEq, Prod.mk.injEq] at h₃
        obtain ⟨⟨id, a₄⟩, h₄, -, rfl⟩ := h₃
        have h₄' := addBinding_grows _ i a₂ a₄ id h₄
        exact ⟨h₂.trans h₄'.1, h₄'.2.trans hs₂⟩
      · simp only [Option.some.injEq, Prod.mk.injEq] at h₃
        obtain ⟨-, rfl⟩ := h₃
        exact ⟨h₂, hs₂⟩)
    h₁
  exact ⟨this.1.trans (.of_bindings_eq rfl), this.2⟩

end Application

/-! ### Substituting renames and deletes -/

/-- `e'` has the length of `e`, and each of its bindings calls what the binding of `e` at the
same id calls, or nothing. -/
def Shrinks (e e' : Expansion) : Prop :=
  e'.bindings.length = e.bindings.length ∧ ∀ i, e'.callAt i = e.callAt i ∨ e'.callAt i = none

namespace Shrinks

variable {e e' e'' : Expansion}

@[refl] lemma refl (e : Expansion) : Shrinks e e := ⟨rfl, fun _ => .inl rfl⟩

@[trans] lemma trans (h₁ : Shrinks e e') (h₂ : Shrinks e' e'') : Shrinks e e'' := by
  refine ⟨h₂.1.trans h₁.1, fun i => ?_⟩
  rcases h₂.2 i with h | h
  · rw [h]
    exact h₁.2 i
  · exact .inr h

/-- A deleted binding stays deleted. -/
lemma callAt_eq_none (h : Shrinks e e') {i : BindingId} (hi : e.callAt i = none) :
    e'.callAt i = none := by
  rcases h.2 i with h | h
  · rw [h, hi]
  · exact h

end Shrinks

namespace Expansion

/-- **`substitute` renames and deletes its target.** -/
theorem substitute_shrinks {e e' : Expansion} {target replace : BindingId}
    (h : e.substitute target replace = some e') : Shrinks e e' ∧ e'.callAt target = none := by
  simp only [substitute, Option.bind_eq_bind, Option.bind_eq_some_iff] at h
  obtain ⟨bindings, hmap, h⟩ := h
  split at h
  case isFalse => cases h
  case isTrue htarget =>
    simp only [Option.pure_def, Option.some.injEq] at h
    subst h
    have hlen := List.length_of_mapM_eq_some hmap
    refine ⟨⟨by simp [hlen], fun i => ?_⟩, ?_⟩
    · by_cases hi : target = i
      · subst hi
        right
        simp [callAt_eq, List.getElem?_set_self htarget]
      · rw [callAt_eq, callAt_eq, List.getElem?_set_ne hi, List.getElem?_of_mapM_eq_some hmap i]
        -- a renamed binding calls the same term; an iterator cannot be renamed
        cases e.bindings[i]? with
        | none => exact .inl rfl
        | some b =>
          cases b with
          | none => exact .inl rfl
          | some b =>
            cases hb : ((∅ : Reindex).map target replace).binding b with
            | none => right; simp [hb]
            | some b' => left; simp [hb, Reindex.constructorTerm_binding hb]
    · simp [callAt_eq, List.getElem?_set_self htarget]

end Expansion

namespace Application

/-- **`build` renames and deletes, and deletes the call site.** The call site is the target of
the last substitution, which `build` applies first. -/
theorem build_shrinks {a : Application} {e' : Expansion} {callSite result : BindingId}
    (hlast : a.substitutions.getLast? = some (callSite, result)) (h : a.build = some e') :
    Shrinks a.expansion e' ∧ e'.callAt callSite = none := by
  obtain ⟨rest, hrest⟩ := List.getLast?_eq_some_iff.mp hlast
  simp only [build, hrest, List.reverse_append, List.reverse_singleton, List.singleton_append,
    List.foldlM_cons, Option.bind_eq_bind, Option.bind_eq_some_iff] at h
  obtain ⟨e₁, h₁, h⟩ := h
  exact List.foldlM_option_induction
    (fun e₂ => Shrinks a.expansion e₂ ∧ e₂.callAt callSite = none) (Expansion.substitute_shrinks h₁)
    (fun e₂ ⟨h₂, hc₂⟩ _ _ e₃ h₃ =>
      have h₃' := Expansion.substitute_shrinks h₃
      ⟨h₂.trans h₃'.1, h₃'.1.callAt_eq_none hc₂⟩)
    h

end Application

/-! ### One chaining step -/

/-- What chaining a call `callSite` with `ruleSet` does to the calls: it keeps or deletes each
call of `e`, deletes the call site, and every call it adds calls a term that a binding of the
rule set calls. -/
structure Chained (ruleSet : RuleSet) (callSite : BindingId) (e e' : Expansion) : Prop where
  length_le : e.bindings.length ≤ e'.bindings.length
  old : ∀ i < e.bindings.length, e'.callAt i = e.callAt i ∨ e'.callAt i = none
  call : e'.callAt callSite = none
  new : ∀ i, e.bindings.length ≤ i → ∀ u, e'.callAt i = some u →
    ∃ b ∈ ruleSet.bindings, constructorTerm b = some u

namespace Chained

variable {ruleSet : RuleSet} {callSite : BindingId} {e e₁ e' : Expansion}

lemma of_grows_shrinks (h₁ : Grows ruleSet e e₁) (h₂ : Shrinks e₁ e')
    (hcall : e'.callAt callSite = none) : Chained ruleSet callSite e e' where
  length_le := h₂.1 ▸ h₁.1.length_le
  old i hi := by
    rw [← Grows.callAt_eq h₁.1 hi]
    exact h₂.2 i
  call := hcall
  new i hi u hu := by
    rcases h₂.2 i with h | h
    · exact h₁.2 i hi u (h ▸ hu)
    · rw [h] at hu
      cases hu

/-- **Chaining one rule, with negations, is a `Chained` step.** `negations` stands for any
sequence of `negation`s, given as a relation that keeps `Grows` and the substitutions. -/
theorem of_rule {rule : Rule} {parameters : List BindingId} {a₁ a₂ : Application}
    (h₁ : (Application.new e).rule ruleSet rule parameters callSite = some a₁)
    (h₂ : Grows ruleSet a₁.expansion a₂.expansion ∧ a₂.substitutions = a₁.substitutions)
    (h₃ : a₂.build = some e') : Chained ruleSet callSite e e' := by
  obtain ⟨hg₁, result, hlast⟩ := Application.rule_grows h₁
  obtain ⟨hs, hcall⟩ := Application.build_shrinks (h₂.2 ▸ hlast) h₃
  exact of_grows_shrinks (hg₁.trans h₂.1) hs hcall

end Chained

end Cranelift.Veri
