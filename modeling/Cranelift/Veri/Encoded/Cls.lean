import Cranelift.Veri.Encoded.Clz

/-!
# The SMT encodings of count-leading-sign-bits

A model of `cranelift/isle/veri/veri/src/encoded/cls.rs` and of the arm of
`Solver::expr_to_smt` for `Expr::Cls`. Each of `cls64`, `cls32`, `cls16` and `cls8` is generated
code for two binary searches of the shape `search` of `clz.rs`: one with logical shifts against
zero, which counts the leading zeros, and one with arithmetic shifts against the all-ones word,
which counts the leading ones of a negative operand. Each count is less one unless it is zero,
and the first is chosen when the operand is not negative. The four encodings have one shape,
`clsWord`, which each of them applies to its own width, names, shifts and all-ones literal.

## Main definitions

* `Cranelift.Veri.Encoded.clsWord` — the shape of the encodings.
* `Cranelift.Veri.Encoded.cls64`, `cls32`, `cls16`, `cls8`, and the dispatch
  `Cranelift.Veri.Encoded.exprCls`.

## Main results

* `Cranelift.Veri.Encoded.clsValue_eq` — the value the encoding selects is `LeadingZeros.cls`,
  the leading sign bits as the ARM architecture defines them.
* `Cranelift.Veri.Encoded.searchDec_sound`, `Cranelift.Veri.Encoded.searchDec_sat` — each half of
  the encoding, a search and its decrement, in every model and in a model that extends.
* `Cranelift.Veri.Encoded.clsWord_exact` — the shape is exact for `LeadingZeros.cls` when its
  shifts halve the width and its names are distinct.
* `Cranelift.Veri.Encoded.exprCls_exact` — the encoding of each width `8, 16, 32, 64` that
  `expr_to_smt` encodes is exact for `LeadingZeros.cls`.
-/

namespace Cranelift.Veri.Encoded

open Smt LeadingZeros

/-- The shape shared by `cls64`, `cls32`, `cls16` and `cls8`: the search for leading zeros and
the search for leading ones, each count less one unless it is zero, and the first chosen when
`x` is at least zero, signed. -/
def clsWord (width : ℕ) (x : Term String) (id : ℕ)
    (zrounds srounds : List (String × String × String × ℕ)) (allOnes : ℕ) (ret : String) :
    M String (Term String) := do
  let zret7 ← search width id .lshr 0 x "zret0" zrounds "zret7"
  let clzret ← declare (formatName "clzret" id) (.bitVec width)
  assert (.ite (.eq zret7 (.lit width 0)) (.eq clzret zret7)
    (.eq clzret (bvsub zret7 (.lit width 1))))
  let sret7 ← search width id .ashr allOnes x "sret0" srounds "sret7"
  let clsret ← declare (formatName "clsret" id) (.bitVec width)
  assert (.ite (.eq sret7 (.lit width 0)) (.eq clsret sret7)
    (.eq clsret (bvsub sret7 (.lit width 1))))
  let ret ← declare (formatName ret id) (.bitVec width)
  assert (.ite (.bvsle (.lit width 0) x) (.eq ret clzret) (.eq ret clsret))
  return ret

/-- `cls64`. -/
def cls64 (x : Term String) (id : ℕ) : M String (Term String) :=
  clsWord 64 x id
    [("zret1", "zy32", "zx32", 0x20), ("zret2", "zy16", "zx16", 0x10),
     ("zret3", "zy8", "zx8", 0x08), ("zret4", "zy4", "zx4", 0x04),
     ("zret5", "zy2", "zx2", 0x02), ("zret6", "zy1", "zx1", 0x01)]
    [("sret1", "sy32", "sx32", 0x20), ("sret2", "sy16", "sx16", 0x10),
     ("sret3", "sy8", "sx8", 0x08), ("sret4", "sy4", "sx4", 0x04),
     ("sret5", "sy2", "sx2", 0x02), ("sret6", "sy1", "sx1", 0x01)]
    18446744073709551615 "cls64ret"

/-- `cls32`. -/
def cls32 (x : Term String) (id : ℕ) : M String (Term String) :=
  clsWord 32 (.extract 31 0 x) id
    [("zret2", "zy16", "zx16", 0x10), ("zret3", "zy8", "zx8", 0x08),
     ("zret4", "zy4", "zx4", 0x04), ("zret5", "zy2", "zx2", 0x02),
     ("zret6", "zy1", "zx1", 0x01)]
    [("sret2", "sy16", "sx16", 0x10), ("sret3", "sy8", "sx8", 0x08),
     ("sret4", "sy4", "sx4", 0x04), ("sret5", "sy2", "sx2", 0x02),
     ("sret6", "sy1", "sx1", 0x01)]
    4294967295 "cls32ret"

/-- `cls16`. -/
def cls16 (x : Term String) (id : ℕ) : M String (Term String) :=
  clsWord 16 (.extract 15 0 x) id
    [("zret3", "zy8", "zx8", 0x0008), ("zret4", "zy4", "zx4", 0x0004),
     ("zret5", "zy2", "zx2", 0x0002), ("zret6", "zy1", "zx1", 0x0001)]
    [("sret3", "sy8", "sx8", 0x0008), ("sret4", "sy4", "sx4", 0x0004),
     ("sret5", "sy2", "sx2", 0x0002), ("sret6", "sy1", "sx1", 0x0001)]
    65535 "cls16ret"

/-- `cls8`. -/
def cls8 (x : Term String) (id : ℕ) : M String (Term String) :=
  clsWord 8 (.extract 7 0 x) id
    [("zret4", "zy4", "zx4", 0x04), ("zret5", "zy2", "zx2", 0x02), ("zret6", "zy1", "zx1", 0x01)]
    [("sret4", "sy4", "sx4", 0x04), ("sret5", "sy2", "sx2", 0x02), ("sret6", "sy1", "sx1", 0x01)]
    255 "cls8ret"

/-- The arm of `Solver::expr_to_smt` for `Expr::Cls`, on an operand of known width; other
widths are `unimplemented!`. -/
def exprCls (width : ℕ) (x : Term String) (id : ℕ) : M String (Option (Term String)) :=
  match width with
  | 8 => some <$> cls8 x id
  | 16 => some <$> cls16 x id
  | 32 => some <$> cls32 x id
  | 64 => some <$> cls64 x id
  | _ => return none

/-! ### The values of the encoding -/

section Values

variable {w : ℕ}

/-- A count less one, unless it is zero. -/
def decValue (v : BitVec w) : BitVec w := if v = BitVec.ofNat w 0 then v else v - BitVec.ofNat w 1

/-- The value of the decrement's conditional definition. -/
theorem decValue_eq (v : BitVec w) :
    (if decide (v = BitVec.ofNat w 0) = true then v
      else BvBinOp.apply .sub v (BitVec.ofNat w 1)) = decValue v := by
  by_cases hv : v = BitVec.ofNat w 0
  · simp [decValue, hv]
  · -- a count other than zero is decremented, which `BvBinOp.apply .sub` computes
    simp [decValue, hv]
    rfl

/-- The value the encoding selects. -/
def clsValue (zrounds srounds : List (String × String × String × ℕ)) (allOnes : ℕ)
    (a : BitVec w) : BitVec w :=
  if (BitVec.ofNat w 0).sle a then
    decValue (lastValue 0 (roundValues .lshr 0 zrounds (BitVec.ofNat w 0, a)))
  else decValue (lastValue allOnes (roundValues .ashr allOnes srounds (BitVec.ofNat w 0, a)))

theorem ofNat_two_pow_sub_one : BitVec.ofNat w (2 ^ w - 1) = BitVec.allOnes w := by
  apply BitVec.eq_of_toNat_eq
  rw [BitVec.toNat_ofNat, BitVec.toNat_allOnes, Nat.mod_eq_of_lt (by have := Nat.two_pow_pos w; omega)]

theorem roundValue_ashr {s : ℕ} (hs : s < 2 ^ w) (st : BitVec w × BitVec w) :
    roundValue .ashr (2 ^ w - 1) s st = signRound s st := by
  simp only [roundValue, signRound, BvBinOp.apply, BitVec.sshiftRight_eq', BitVec.toNat_ofNat,
    Nat.mod_eq_of_lt hs, ofNat_two_pow_sub_one]

/-- With arithmetic shifts against the all-ones word, the rounds are those of the search for
leading ones. -/
theorem roundValues_ashr :
    ∀ {rounds : List (String × String × String × ℕ)}, (∀ r ∈ rounds, r.2.2.2 < 2 ^ w) →
      ∀ st : BitVec w × BitVec w,
        roundValues .ashr (2 ^ w - 1) rounds st = signRounds (rounds.map fun r => r.2.2.2) st
  | [], _, _ => rfl
  | (_, _, _, s) :: rest, hs, st => by
    rw [roundValues, List.map_cons, signRounds, roundValue_ashr (hs _ List.mem_cons_self)]
    exact roundValues_ashr (fun r hr => hs r (List.mem_cons_of_mem _ hr)) _

theorem lastValue_allOnes (st : BitVec w × BitVec w) :
    lastValue (2 ^ w - 1) st = signLast st := by
  rw [lastValue, signLast, ofNat_two_pow_sub_one]
  rfl

/-- **The encoding selects the leading sign bits** when both searches halve the width down to
one bit. -/
theorem clsValue_eq (hw : 0 < w) {zrounds srounds : List (String × String × String × ℕ)}
    (hhalf : Halving w (zrounds.map fun r => r.2.2.2))
    (hshifts : srounds.map (fun r => r.2.2.2) = zrounds.map fun r => r.2.2.2)
    (hz : ∀ r ∈ zrounds, r.2.2.2 < 2 ^ w) (hs : ∀ r ∈ srounds, r.2.2.2 < 2 ^ w) (a : BitVec w) :
    clsValue zrounds srounds (2 ^ w - 1) a = cls a := by
  have hpos := one_le_toNat_clz_signRun hw a
  rw [clz_signRun_eq hhalf] at hpos
  rw [clsValue, roundValues_lshr hz, roundValues_ashr hs, lastValue_zero, lastValue_allOnes,
    hshifts, show BitVec.ofNat w 0 = 0#w from rfl, zero_sle_eq, cls_eq hw, clz_signRun_eq hhalf]
  -- the count is never zero: the sign bit is always counted
  have hne : ∀ v : BitVec w, 1 ≤ v.toNat → decValue v = v - 1 := by
    intro v hv
    have hv0 : v ≠ BitVec.ofNat w 0 := by
      intro h0
      rw [h0, BitVec.toNat_ofNat, Nat.zero_mod] at hv
      omega
    rw [decValue, if_neg hv0]
    rfl
  cases hmsb : a.msb <;>
    simp only [hmsb, Bool.not_false, Bool.not_true, Bool.false_eq_true, if_true, if_false]
      at hpos ⊢
  · exact hne _ hpos
  · exact hne _ hpos

end Values

/-! ### A search and its decrement, run -/

section SearchDec

variable {width id : ℕ} {op : BvBinOp} {stop : ℕ}

/-- The context a search leaves after the definition of `dec` as its count less one unless it
is zero: each half of `clsWord`. -/
abbrev searchDec (width id : ℕ) (op : BvBinOp) (stop : ℕ) (x : Term String) (ret0 : String)
    (rounds : List (String × String × String × ℕ)) (retLast dec : String)
    (ctx : Context String) : Context String :=
  ((search width id op stop x ret0 rounds retLast).run ctx).2.defineIte (formatName dec id)
    (.bitVec width) (.eq (.const (formatName retLast id)) (.lit width 0))
    (.const (formatName retLast id)) (bvsub (.const (formatName retLast id)) (.lit width 1))

theorem clsWord_run (x : Term String) (zrounds srounds : List (String × String × String × ℕ))
    (allOnes : ℕ) (ret : String) (ctx : Context String) :
    (clsWord width x id zrounds srounds allOnes ret).run ctx =
      (.const (formatName ret id),
        (searchDec width id .ashr allOnes x "sret0" srounds "sret7" "clsret"
          (searchDec width id .lshr 0 x "zret0" zrounds "zret7" "clzret" ctx)).defineIte
          (formatName ret id) (.bitVec width) (.bvsle (.lit width 0) x)
          (.const (formatName "clzret" id)) (.const (formatName "clsret" id))) :=
  rfl

/-- The bases of the names a search and its decrement declare. -/
def searchDecNames (ret0 : String) (rounds : List (String × String × String × ℕ))
    (retLast dec : String) : List String :=
  searchNames ret0 rounds retLast ++ [dec]

theorem names_searchDec (x : Term String) (ret0 : String)
    (rounds : List (String × String × String × ℕ)) (retLast dec : String) (ctx : Context String) :
    (searchDec width id op stop x ret0 rounds retLast dec ctx).names =
      ctx.names ++ (searchDecNames ret0 rounds retLast dec).map (formatName · id) := by
  rw [Context.names_defineIte, names_search_run, searchDecNames, List.map_append,
    List.append_assoc]
  rfl

theorem models_of_searchDec {ρ : String → Value} {x : Term String} {ret0 retLast dec : String}
    {rounds : List (String × String × String × ℕ)} {ctx : Context String}
    (h : Models ρ (searchDec width id op stop x ret0 rounds retLast dec ctx)) : Models ρ ctx :=
  models_of_search h.of_defineIte

/-- **Soundness of a search and its decrement**: in every model, `dec` is the last value of the
rounds less one, unless it is zero. -/
theorem searchDec_sound {ρ : String → Value} {x : Term String} {ret0 retLast dec : String}
    {rounds : List (String × String × String × ℕ)} {ctx : Context String} {v : BitVec width}
    (h : Models ρ (searchDec width id op stop x ret0 rounds retLast dec ctx))
    (hv : x.eval ρ = some (.bv width v)) :
    ρ (formatName dec id) =
      .bv width (decValue (lastValue stop (roundValues op stop rounds (BitVec.ofNat width 0, v)))) := by
  have hret : (Term.const (formatName retLast id)).eval ρ = some (.bv width
      (lastValue stop (roundValues op stop rounds (BitVec.ofNat width 0, v)))) :=
    search_sound h.of_defineIte hv
  rw [h.eq_of_defineIte (Term.eval_eq_bv hret (Term.eval_lit width 0)) hret
    (Term.eval_bin hret (Term.eval_lit width 1) .sub), decValue_eq]

/-- **Satisfiability of a search and its decrement**: a model of a closed context in which the
operand has a value and the names are fresh and distinct extends to them. -/
theorem searchDec_sat (op : BvBinOp) (stop : ℕ) {ρ : String → Value} {ctx : Context String}
    (h : Models ρ ctx)
    (hclosed : ctx.Closed) {x : Term String} (hxc : ∀ m ∈ x.consts, m ∈ ctx.names)
    {v : BitVec width} (hv : x.eval ρ = some (.bv width v)) {ret0 retLast dec : String}
    {rounds : List (String × String × String × ℕ)}
    (hfresh : ∀ b ∈ searchDecNames ret0 rounds retLast dec, formatName b id ∉ ctx.names)
    (hnodup : (searchDecNames ret0 rounds retLast dec).Nodup) :
    ∃ ρ', Extension ρ ctx ρ' (searchDec width id op stop x ret0 rounds retLast dec ctx) ∧
      ρ' (formatName dec id) =
        .bv width (decValue (lastValue stop (roundValues op stop rounds (BitVec.ofNat width 0, v)))) := by
  obtain ⟨ρ₁, hext₁, hret₁⟩ : ∃ ρ₁,
      Extension ρ ctx ρ₁ ((search width id op stop x ret0 rounds retLast).run ctx).2 ∧
        (Term.const (formatName retLast id)).eval ρ₁ = some (.bv width
          (lastValue stop (roundValues op stop rounds (BitVec.ofNat width 0, v)))) :=
    search_sat h hclosed hxc hv (fun b hb => hfresh b (List.mem_append_left _ hb))
      (List.nodup_append.mp hnodup).1
  -- `dec` is fresh after the search, and the search's result is declared by it
  have hdec : formatName dec id ∉ ((search width id op stop x ret0 rounds retLast).run ctx).2.names :=
    fresh_of_nodup (fun b hb => hfresh b (List.mem_append_right _ hb)) hnodup
      (names_search_run x ret0 rounds retLast ctx) dec (List.mem_singleton_self _)
  have hretc : ∀ m ∈ (Term.const (formatName retLast id)).consts,
      m ∈ ((search width id op stop x ret0 rounds retLast).run ctx).2.names := by
    intro m hm
    rw [List.mem_singleton.mp hm, names_search_run]
    exact List.mem_append_right _ (List.mem_map_of_mem (by simp [searchNames]))
  have hext₂ := Extension.defineIte hext₁.models hext₁.closed hdec
    (fun m hm => hretc m (by simpa [Term.consts] using hm)) hretc
    (fun m hm => hretc m (by simpa [Term.consts] using hm))
    (Term.eval_eq_bv hret₁ (Term.eval_lit width 0)) hret₁
    (Term.eval_bin hret₁ (Term.eval_lit width 1) .sub)
  refine ⟨_, hext₁.trans hext₂, ?_⟩
  rw [Function.update_self, decValue_eq]

end SearchDec

/-! ### The whole encoding -/

section Word

variable {width id : ℕ} {x : Term String} {zrounds srounds : List (String × String × String × ℕ)}
  {allOnes : ℕ} {ret : String}

/-- **Soundness of the encoding**: in every model, its result is `clsValue` of the operand. -/
theorem clsWord_sound {ρ : String → Value} {ctx : Context String} {a : BitVec width}
    (h : Models ρ ((clsWord width x id zrounds srounds allOnes ret).run ctx).2)
    (hx : x.eval ρ = some (.bv width a)) :
    ((clsWord width x id zrounds srounds allOnes ret).run ctx).1.eval ρ =
      some (.bv width (clsValue zrounds srounds allOnes a)) := by
  rw [clsWord_run] at h ⊢
  have hsign := h.of_defineIte
  have hcls := searchDec_sound hsign hx
  have hclz := searchDec_sound (models_of_searchDec hsign) hx
  -- the result is the first count when `0 <= x`, signed, and the second otherwise
  rw [Term.eval_const, h.eq_of_defineIte (Term.eval_bvsle (Term.eval_lit width 0) hx)
    (by rw [Term.eval_const, hclz]) (by rw [Term.eval_const, hcls])]
  rfl

/-- The bases of the names the encoding declares. -/
def clsNames (zrounds srounds : List (String × String × String × ℕ)) (ret : String) :
    List String :=
  searchDecNames "zret0" zrounds "zret7" "clzret" ++
    (searchDecNames "sret0" srounds "sret7" "clsret" ++ [ret])

theorem names_clsWord_run (x : Term String) (zrounds srounds : List (String × String × String × ℕ))
    (allOnes : ℕ) (ret : String) (ctx : Context String) :
    ((clsWord width x id zrounds srounds allOnes ret).run ctx).2.names =
      ctx.names ++ (clsNames zrounds srounds ret).map (formatName · id) := by
  rw [clsWord_run, Context.names_defineIte, names_searchDec, names_searchDec, clsNames]
  simp

/-- **Satisfiability of the encoding**: a model of a closed context in which the operand has a
value extends to the encoding, when its names are fresh and distinct. -/
theorem clsWord_sat {ρ : String → Value} {ctx : Context String} (h : Models ρ ctx)
    (hclosed : ctx.Closed) (hxc : ∀ m ∈ x.consts, m ∈ ctx.names) {a : BitVec width}
    (hx : x.eval ρ = some (.bv width a))
    (hfresh : ∀ b ∈ clsNames zrounds srounds ret, formatName b id ∉ ctx.names)
    (hnodup : (clsNames zrounds srounds ret).Nodup) :
    ∃ ρ', Extension ρ ctx ρ' ((clsWord width x id zrounds srounds allOnes ret).run ctx).2 := by
  rw [clsWord_run]
  have hnodup₁ := (List.nodup_append.mp hnodup).2.1
  -- the search for leading zeros and `clzret`
  obtain ⟨ρ₁, hext₁, hclz⟩ := searchDec_sat .lshr 0 h hclosed hxc hx
    (fun b hb => hfresh b (List.mem_append_left _ hb)) (List.nodup_append.mp hnodup).1
  have hxc₁ : ∀ m ∈ x.consts, m ∈ (searchDec width id .lshr 0 x "zret0" zrounds "zret7" "clzret"
      ctx).names := fun m hm => hext₁.names_mono m (hxc m hm)
  have hfresh₁ : ∀ b ∈ searchDecNames "sret0" srounds "sret7" "clsret" ++ [ret], formatName b id ∉
      (searchDec width id .lshr 0 x "zret0" zrounds "zret7" "clzret" ctx).names :=
    fresh_of_nodup (fun b hb => hfresh b (List.mem_append_right _ hb)) hnodup
      (names_searchDec x "zret0" zrounds "zret7" "clzret" ctx)
  -- the search for leading ones and `clsret`
  obtain ⟨ρ₂, hext₂, hcls⟩ := searchDec_sat .ashr allOnes hext₁.models hext₁.closed hxc₁
    ((hext₁.eval_eq hxc).trans hx) (fun b hb => hfresh₁ b (List.mem_append_left _ hb))
    (List.nodup_append.mp hnodup₁).1
  -- the result
  have hret : formatName ret id ∉ (searchDec width id .ashr allOnes x "sret0" srounds "sret7"
      "clsret" (searchDec width id .lshr 0 x "zret0" zrounds "zret7" "clzret" ctx)).names :=
    fresh_of_nodup (fun b hb => hfresh₁ b (List.mem_append_right _ hb)) hnodup₁
      (names_searchDec x "sret0" srounds "sret7" "clsret" _) ret (List.mem_singleton_self _)
  have hclzc : formatName "clzret" id ∈
      (searchDec width id .lshr 0 x "zret0" zrounds "zret7" "clzret" ctx).names := by
    rw [names_searchDec]
    exact List.mem_append_right _ (List.mem_map_of_mem (by simp [searchDecNames]))
  have hclsc : formatName "clsret" id ∈ (searchDec width id .ashr allOnes x "sret0" srounds "sret7"
      "clsret" (searchDec width id .lshr 0 x "zret0" zrounds "zret7" "clzret" ctx)).names := by
    rw [names_searchDec]
    exact List.mem_append_right _ (List.mem_map_of_mem (by simp [searchDecNames]))
  have hext₃ := Extension.defineIte hext₂.models hext₂.closed hret
    (fun m hm => hext₂.names_mono m (hxc₁ m (by simpa [Term.consts] using hm)))
    (fun m (hm : m ∈ (Term.const (formatName "clzret" id)).consts) =>
      List.mem_singleton.mp hm ▸ hext₂.names_mono _ hclzc)
    (fun m (hm : m ∈ (Term.const (formatName "clsret" id)).consts) =>
      List.mem_singleton.mp hm ▸ hclsc)
    (Term.eval_bvsle (Term.eval_lit width 0) ((hext₂.eval_eq hxc₁).trans ((hext₁.eval_eq hxc).trans hx)))
    (by rw [Term.eval_const, hext₂.agree _ hclzc, hclz]) (by rw [Term.eval_const, hcls])
  exact ⟨_, (hext₁.trans hext₂).trans hext₃⟩

end Word

/-! ### Exactness -/

section Exact

variable {x : Term String} {id : ℕ} {ctx : Context String}

/-- **The encoding is exact for `cls`** when both searches halve the width down to one bit with
the same shifts, the second compares against the all-ones word, and the names are distinct. -/
theorem clsWord_exact {width : ℕ} {zrounds srounds : List (String × String × String × ℕ)}
    {allOnes : ℕ} {ret : String} (hw : 0 < width)
    (hhalf : Halving width (zrounds.map fun r => r.2.2.2))
    (hshifts : srounds.map (fun r => r.2.2.2) = zrounds.map fun r => r.2.2.2)
    (hz : ∀ r ∈ zrounds, r.2.2.2 < 2 ^ width) (hs : ∀ r ∈ srounds, r.2.2.2 < 2 ^ width)
    (hall : allOnes = 2 ^ width - 1) (hnodup : (clsNames zrounds srounds ret).Nodup)
    (hclosed : ctx.Closed) (hx : ∀ m ∈ x.consts, m ∈ ctx.names)
    (hfresh : ∀ m ∈ declaredNames (clsWord width x id zrounds srounds allOnes ret), m ∉ ctx.names) :
    Exact width cls x (clsWord width x id zrounds srounds allOnes ret) ctx := by
  subst hall
  constructor
  · intro ρ a h hxa
    rw [clsWord_sound h hxa, clsValue_eq hw hhalf hshifts hz hs]
  · intro ρ a h hxa
    obtain ⟨ρ', hext⟩ := clsWord_sat h hclosed hx hxa
      (fresh_of_declaredNames (names_clsWord_run x zrounds srounds _ ret) hfresh) hnodup
    exact ⟨ρ', hext.models, hext.agree⟩

theorem cls64_exact (hclosed : ctx.Closed) (hx : ∀ m ∈ x.consts, m ∈ ctx.names)
    (hfresh : ∀ m ∈ declaredNames (cls64 x id), m ∉ ctx.names) :
    Exact 64 cls x (cls64 x id) ctx :=
  clsWord_exact (by decide) (by decide) (by decide) (by decide) (by decide) rfl (by decide)
    hclosed hx hfresh

theorem cls32_exact (hclosed : ctx.Closed) (hx : ∀ m ∈ x.consts, m ∈ ctx.names)
    (hfresh : ∀ m ∈ declaredNames (cls32 x id), m ∉ ctx.names) :
    Exact 32 cls x (cls32 x id) ctx :=
  Exact.of_extract_all (by decide) (clsWord_exact (by decide) (by decide) (by decide) (by decide)
    (by decide) rfl (by decide) hclosed hx hfresh)

theorem cls16_exact (hclosed : ctx.Closed) (hx : ∀ m ∈ x.consts, m ∈ ctx.names)
    (hfresh : ∀ m ∈ declaredNames (cls16 x id), m ∉ ctx.names) :
    Exact 16 cls x (cls16 x id) ctx :=
  Exact.of_extract_all (by decide) (clsWord_exact (by decide) (by decide) (by decide) (by decide)
    (by decide) rfl (by decide) hclosed hx hfresh)

theorem cls8_exact (hclosed : ctx.Closed) (hx : ∀ m ∈ x.consts, m ∈ ctx.names)
    (hfresh : ∀ m ∈ declaredNames (cls8 x id), m ∉ ctx.names) :
    Exact 8 cls x (cls8 x id) ctx :=
  Exact.of_extract_all (by decide) (clsWord_exact (by decide) (by decide) (by decide) (by decide)
    (by decide) rfl (by decide) hclosed hx hfresh)

/-- **The encodings of count-leading-sign-bits are exact**: at each width that `expr_to_smt`
encodes, `exprCls` returns the result of an encoding that is, in every model, the number of
bits below the sign bit that equal it before the first that differs (`LeadingZeros.cls`, which
is `w - 1` for zero and for the all-ones word), and whose assertions every model of the context
it starts from extends to. -/
theorem exprCls_exact {w : ℕ} (hw : w ∈ [8, 16, 32, 64]) (hclosed : ctx.Closed)
    (hx : ∀ m ∈ x.consts, m ∈ ctx.names)
    (hfresh : ∀ m ∈ declaredNames (exprCls w x id), m ∉ ctx.names) :
    ∃ enc, exprCls w x id = some <$> enc ∧ Exact w cls x enc ctx := by
  simp only [List.mem_cons, List.not_mem_nil, or_false] at hw
  rcases hw with rfl | rfl | rfl | rfl <;> simp only [exprCls, declaredNames_map] at hfresh
  · exact ⟨_, rfl, cls8_exact hclosed hx hfresh⟩
  · exact ⟨_, rfl, cls16_exact hclosed hx hfresh⟩
  · exact ⟨_, rfl, cls32_exact hclosed hx hfresh⟩
  · exact ⟨_, rfl, cls64_exact hclosed hx hfresh⟩

/-- A spec variable `x` of index `0`, declared as `x_0`, encoded with the id `0`. -/
theorem exprCls_exact_byte :
    let ctx : Context String := ⟨[(formatName "x" 0, .bitVec 8)], []⟩
    8 ∈ [8, 16, 32, 64] ∧ ctx.Closed ∧
      (∀ m ∈ (Term.const (formatName "x" 0)).consts, m ∈ ctx.names) ∧
      (∀ m ∈ declaredNames (exprCls 8 (.const (formatName "x" 0)) 0), m ∉ ctx.names) ∧
      ∃ enc, exprCls 8 (.const (formatName "x" 0)) 0 = some <$> enc ∧
        Exact 8 cls (.const (formatName "x" 0)) enc ctx := by
  intro ctx
  have hw : 8 ∈ [8, 16, 32, 64] := by decide
  have hclosed : ctx.Closed := by simp [ctx, Context.Closed]
  have hx : ∀ m ∈ (Term.const (formatName "x" 0)).consts, m ∈ ctx.names := by
    simp [ctx, Term.consts, Context.names]
  have hfresh : ∀ m ∈ declaredNames (exprCls 8 (.const (formatName "x" 0)) 0), m ∉ ctx.names := by
    decide
  exact ⟨hw, hclosed, hx, hfresh, exprCls_exact hw hclosed hx hfresh⟩

end Exact

end Cranelift.Veri.Encoded
