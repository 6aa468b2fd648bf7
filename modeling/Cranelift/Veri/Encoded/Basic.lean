import Cranelift.Lib.Smt

/-!
# Declared constants of the verifier's SMT encodings

Each module of `cranelift/isle/veri/veri/src/encoded/` declares the intermediate values of its
encoding as bit-vector constants, with its own copy of the helper `declare`, under names
formatted as `{base}_{id}` where `id` is the index of the encoded expression; and it defines
each one by an assertion.

## Main definitions

* `Cranelift.Veri.Encoded.formatName`, `Cranelift.Veri.Encoded.declare`,
  `Cranelift.Veri.Encoded.declaredNames`.
* `Cranelift.Veri.Encoded.Exact` — an encoding of a function is exact: sound in every model,
  and satisfiable from every model of the context it starts from.

## Main results

* `Cranelift.Veri.Encoded.formatName_inj` — names of one expression differ when their bases do.
* `Cranelift.Veri.Encoded.Exact.of_extract_all` — an encoding that starts by extracting all the
  bits of its operand is exact for the operand.
* `Cranelift.Veri.Encoded.eq_of_holds_eq` — in a model, a constant asserted equal to a term has
  the term's value.
-/

namespace Cranelift.Veri.Encoded

open Smt

/-- `format!("{base}_{id}", id = id)`. -/
def formatName (base : String) (id : ℕ) : String := base ++ "_" ++ toString id

/-- The names of one expression are told apart by their bases. -/
@[simp] theorem formatName_inj {a b : String} {id : ℕ} :
    formatName a id = formatName b id ↔ a = b := by
  constructor
  · intro h
    have hlist := congrArg String.toList h
    simp only [formatName, String.toList_append, List.append_cancel_right_eq,
      List.append_assoc] at hlist
    exact String.toList_inj.mp hlist
  · rintro rfl
    rfl

/-- From a list of distinct bases, fresh for a context, those after the ones declared since
are still fresh. -/
theorem fresh_of_nodup {ctx ctx' : Context String} {id : ℕ} {pre post : List String}
    (hfresh : ∀ b ∈ post, formatName b id ∉ ctx.names)
    (hnodup : (pre ++ post).Nodup) (hnames : ctx'.names = ctx.names ++ pre.map (formatName · id)) :
    ∀ b ∈ post, formatName b id ∉ ctx'.names := by
  intro b hb hmem
  rw [hnames, List.mem_append] at hmem
  rcases hmem with hmem | hmem
  · exact hfresh b hb hmem
  · obtain ⟨b', hb', hbb'⟩ := List.mem_map.mp hmem
    rw [formatName_inj] at hbb'
    exact (List.nodup_append.mp hnodup).2.2 b' hb' b hb hbb'

/-- `declare`: `declare-const`, then the constant as an atom. -/
def declare (name : String) (σ : Ty) : M String (Term String) := do
  declareConst name σ
  return .const name

@[simp] theorem declare_run (name : String) (σ : Ty) (ctx : Context String) :
    (declare name σ).run ctx = (.const name, ⟨ctx.decls ++ [(name, σ)], ctx.asserts⟩) := rfl

/-- The names an encoding declares: those its run from the empty context declares. -/
def declaredNames {α : Type} (enc : M String α) : List String := (enc.run ⟨[], []⟩).2.names

@[simp] theorem declaredNames_map {α β : Type} (f : α → β) (enc : M String α) :
    declaredNames (f <$> enc) = declaredNames enc := rfl

/-- An encoding that declares the names of `bases` from every context: where none of the names
it declares is declared yet, none of those bases is either. -/
theorem fresh_of_declaredNames {α : Type} {enc : M String α} {bases : List String} {id : ℕ}
    (hnames : ∀ ctx : Context String,
      (enc.run ctx).2.names = ctx.names ++ bases.map (formatName · id))
    {ctx : Context String} (hfresh : ∀ m ∈ declaredNames enc, m ∉ ctx.names) :
    ∀ b ∈ bases, formatName b id ∉ ctx.names := by
  intro b hb
  apply hfresh
  rw [declaredNames, hnames]
  exact List.mem_append_right _ (List.mem_map_of_mem hb)

/-- In a model, a bit-vector constant asserted equal to a term has the term's value. -/
theorem eq_of_holds_eq {ρ : String → Value} {n : String} {t : Term String} {w : ℕ}
    {v : BitVec w} (hsort : (ρ n).ty = .bitVec w) (ht : t.eval ρ = some (.bv w v))
    (h : (Term.eq (.const n) t).Holds ρ) : ρ n = .bv w v :=
  (Term.holds_eq_iff (Term.eval_const n) ht (by simpa using hsort)).mp h

/-- The encoding `enc` of a function `f` of `w`-bit operands is exact for the operand `x` from
the context `ctx`: in every model of the context it leaves, its result has the value `f a` when
`x` has the value `a`; and every model of `ctx` under which `x` has a value extends, changed on
fresh constants only, to a model of that context. -/
def Exact (w : ℕ) (f : BitVec w → BitVec w) (x : Term String) (enc : M String (Term String))
    (ctx : Context String) : Prop :=
  (∀ ρ a, Models ρ (enc.run ctx).2 → x.eval ρ = some (.bv w a) →
      (enc.run ctx).1.eval ρ = some (.bv w (f a))) ∧
    ∀ ρ a, Models ρ ctx → x.eval ρ = some (.bv w a) →
      ∃ ρ', Models ρ' (enc.run ctx).2 ∧ ∀ m ∈ ctx.names, ρ' m = ρ m

/-- An encoding exact for an operand is exact for every operand with the same `w`-bit values,
such as the operand itself for its extraction of all its bits. -/
theorem Exact.of_operand {w : ℕ} {f : BitVec w → BitVec w} {x y : Term String}
    {enc : M String (Term String)} {ctx : Context String} (h : Exact w f y enc ctx)
    (hxy : ∀ ρ a, x.eval ρ = some (.bv w a) → y.eval ρ = some (.bv w a)) :
    Exact w f x enc ctx :=
  ⟨fun ρ a hρ hx => h.1 ρ a hρ (hxy ρ a hx), fun ρ a hρ hx => h.2 ρ a hρ (hxy ρ a hx)⟩

/-- Extracting all the bits of a word gives the word. -/
theorem eval_extract_all {ρ : String → Value} {t : Term String} {w : ℕ} {b : BitVec (w + 1)}
    (ht : t.eval ρ = some (.bv (w + 1) b)) {hi : Int32} (hh : hi.toInt = w) :
    (Term.extract hi 0 t).eval ρ = some (.bv (w + 1) b) := by
  rw [Term.eval_extract ht hh rfl (Nat.zero_le w) (Nat.lt_succ_self w),
    Value.bv_cast (show w - 0 + 1 = w + 1 by omega)]
  congr 2
  apply BitVec.eq_of_toNat_eq
  simp [BitVec.extractLsb_toNat, Nat.mod_eq_of_lt b.isLt]

/-- An encoding of the extraction of all the bits of the operand is exact for the operand. -/
theorem Exact.of_extract_all {x : Term String} {ctx : Context String} {w : ℕ} {hi : Int32}
    (hh : hi.toInt = w) {f : BitVec (w + 1) → BitVec (w + 1)} {enc : M String (Term String)}
    (h : Exact (w + 1) f (.extract hi 0 x) enc ctx) : Exact (w + 1) f x enc ctx :=
  h.of_operand fun _ _ hxa => eval_extract_all hxa hh

end Cranelift.Veri.Encoded
