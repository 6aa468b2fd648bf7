import Cranelift.Lib.LeadingZeros
import Cranelift.Veri.Encoded.Basic

/-!
# The SMT encodings of count-leading-zeros

A model of `cranelift/isle/veri/veri/src/encoded/clz.rs` and of the arm of
`Solver::expr_to_smt` for `Expr::Clz`. Each of `clz64`, `clz32`, `clz16` and `clz8` is generated
code for a binary search over halves: a counter that starts at zero, a round for each shift
from half the width down to one, each declaring the counter, the shifted bits `y` and the bits
left `x` and asserting a choice between the two outcomes, and a last step on the one bit left.
`clz1` is the complement of the bit. The four searches have one shape, `search`, which each of
them applies to its own width, names and shifts; `cls.rs` uses the same shape with arithmetic
shifts.

## Main definitions

* `Cranelift.Veri.Encoded.searchRound`, `searchRounds`, `search` — the shape of the searches.
* `Cranelift.Veri.Encoded.clz64`, `clz32`, `clz16`, `clz8`, `clz1`, and the dispatch
  `Cranelift.Veri.Encoded.exprClz`.

## Main results

* `Cranelift.Veri.Encoded.searchRounds_sound`, `Cranelift.Veri.Encoded.searchRounds_sat` — in
  every model the constants of the rounds have the values of the rounds of
  `LeadingZeros.zeroRounds`, and every model extends to them.
* `Cranelift.Veri.Encoded.exprClz_exact` — the encoding of each width `1, 8, 16, 32, 64` that
  `expr_to_smt` encodes is exact for `BitVec.clz`.
-/

namespace Cranelift.Veri.Encoded

open Smt LeadingZeros

/-- A round of a search, on the counter and the bits left so far: the constant `y` is the bits
left shifted right by `s` with `op`; if `y` is not the literal `stop`, the counter `ret` keeps
its value and the bits left `x` are `y`, otherwise the counter grows by `s` and the bits left
stay. -/
def searchRound (width id : ℕ) (op : BvBinOp) (stop : ℕ) (retPrev xPrev : Term String) :
    String × String × String × ℕ → M String (Term String × Term String)
  | (ret, y, x, s) => do
    let ret ← declare (formatName ret id) (.bitVec width)
    let y ← declare (formatName y id) (.bitVec width)
    let x ← declare (formatName x id) (.bitVec width)
    assert (.eq y (.bin op xPrev (.lit width s)))
    assert (.ite (.not (.eq y (.lit width stop))) (.eq ret retPrev)
      (.eq ret (bvadd retPrev (.lit width s))))
    assert (.ite (.not (.eq y (.lit width stop))) (.eq x y) (.eq x xPrev))
    return (ret, x)

/-- The rounds of a search, the widest first. -/
def searchRounds (width id : ℕ) (op : BvBinOp) (stop : ℕ) :
    Term String → Term String → List (String × String × String × ℕ) →
      M String (Term String × Term String)
  | ret, x, [] => return (ret, x)
  | ret, x, round :: rest => do
    let (ret, x) ← searchRound width id op stop ret x round
    searchRounds width id op stop ret x rest

/-- A whole search: the counter `ret0` is zero, the rounds follow, and the counter `retLast`
counts the one bit left when it is `stop`. -/
def search (width id : ℕ) (op : BvBinOp) (stop : ℕ) (x : Term String) (ret0 : String)
    (rounds : List (String × String × String × ℕ)) (retLast : String) :
    M String (Term String) := do
  let ret0 ← declare (formatName ret0 id) (.bitVec width)
  assert (.eq ret0 (.lit width 0))
  let (ret, x1) ← searchRounds width id op stop ret0 x rounds
  let retLast ← declare (formatName retLast id) (.bitVec width)
  assert (.ite (.not (.eq x1 (.lit width stop))) (.eq retLast ret)
    (.eq retLast (bvadd ret (.lit width 1))))
  return retLast

/-- `clz64`. -/
def clz64 (x : Term String) (id : ℕ) : M String (Term String) :=
  search 64 id .lshr 0 x "ret0"
    [("ret1", "y32", "x32", 0x20), ("ret2", "y16", "x16", 0x10), ("ret3", "y8", "x8", 0x08),
     ("ret4", "y4", "x4", 0x04), ("ret5", "y2", "x2", 0x02), ("ret6", "y1", "x1", 0x01)] "ret7"

/-- `clz32`. -/
def clz32 (x : Term String) (id : ℕ) : M String (Term String) :=
  search 32 id .lshr 0 (.extract 31 0 x) "ret0"
    [("ret1", "y16", "x16", 0x10), ("ret2", "y8", "x8", 0x08), ("ret3", "y4", "x4", 0x04),
     ("ret4", "y2", "x2", 0x02), ("ret5", "y1", "x1", 0x01)] "ret6"

/-- `clz16`. -/
def clz16 (x : Term String) (id : ℕ) : M String (Term String) :=
  search 16 id .lshr 0 (.extract 15 0 x) "ret1"
    [("ret2", "y8", "x8", 0x0008), ("ret3", "y4", "x4", 0x0004), ("ret4", "y2", "x2", 0x0002),
     ("ret5", "y1", "x1", 0x0001)] "ret6"

/-- `clz8`. -/
def clz8 (x : Term String) (id : ℕ) : M String (Term String) :=
  search 8 id .lshr 0 (.extract 7 0 x) "ret0"
    [("ret3", "y4", "x4", 0x04), ("ret4", "y2", "x2", 0x02), ("ret5", "y1", "x1", 0x01)] "ret6"

/-- `clz1`: the one bit is a leading zero when it is zero. -/
def clz1 (x : Term String) (id : ℕ) : M String (Term String) := do
  let x := Term.extract 0 0 x
  let clz1ret ← declare (formatName "clz1ret" id) (.bitVec 1)
  assert (.eq clz1ret (.bvnot x))
  return clz1ret

/-- The arm of `Solver::expr_to_smt` for `Expr::Clz`, on an operand of known width; other
widths are `unimplemented!`. -/
def exprClz (width : ℕ) (x : Term String) (id : ℕ) : M String (Option (Term String)) :=
  match width with
  | 1 => some <$> clz1 x id
  | 8 => some <$> clz8 x id
  | 16 => some <$> clz16 x id
  | 32 => some <$> clz32 x id
  | 64 => some <$> clz64 x id
  | _ => return none

/-! ### The values of a search -/

section Values

variable {w : ℕ}

/-- The values a round gives the counter and the bits left. -/
def roundValue (op : BvBinOp) (stop s : ℕ) (st : BitVec w × BitVec w) : BitVec w × BitVec w :=
  if op.apply st.2 (BitVec.ofNat w s) ≠ BitVec.ofNat w stop then
    (st.1, op.apply st.2 (BitVec.ofNat w s))
  else (st.1 + BitVec.ofNat w s, st.2)

/-- The values of the rounds. -/
def roundValues (op : BvBinOp) (stop : ℕ) :
    List (String × String × String × ℕ) → BitVec w × BitVec w → BitVec w × BitVec w
  | [], st => st
  | (_, _, _, s) :: rest, st => roundValues op stop rest (roundValue op stop s st)

/-- The value of the last counter. -/
def lastValue (stop : ℕ) (st : BitVec w × BitVec w) : BitVec w :=
  if st.2 ≠ BitVec.ofNat w stop then st.1 else st.1 + BitVec.ofNat w 1

theorem roundValue_lshr {s : ℕ} (hs : s < 2 ^ w) (st : BitVec w × BitVec w) :
    roundValue .lshr 0 s st = zeroRound s st := by
  simp only [roundValue, zeroRound, BvBinOp.apply, BitVec.ushiftRight_eq', BitVec.toNat_ofNat,
    Nat.mod_eq_of_lt hs]

/-- With logical shifts against zero, the rounds are those of the search for leading zeros. -/
theorem roundValues_lshr :
    ∀ {rounds : List (String × String × String × ℕ)}, (∀ r ∈ rounds, r.2.2.2 < 2 ^ w) →
      ∀ st : BitVec w × BitVec w,
        roundValues .lshr 0 rounds st = zeroRounds (rounds.map fun r => r.2.2.2) st
  | [], _, _ => rfl
  | (_, _, _, s) :: rest, hs, st => by
    rw [roundValues, List.map_cons, zeroRounds, roundValue_lshr (hs _ List.mem_cons_self)]
    exact roundValues_lshr (fun r hr => hs r (List.mem_cons_of_mem _ hr)) _

theorem lastValue_zero (st : BitVec w × BitVec w) : lastValue 0 st = zeroLast st := rfl

end Values

/-! ### A round, run -/

section Round

variable {width id : ℕ} {op : BvBinOp} {stop : ℕ}

/-- The constants a round declares. -/
def roundDecls (width id : ℕ) : String × String × String × ℕ → List (String × Ty)
  | (ret, y, x, _) =>
    [(formatName ret id, .bitVec width), (formatName y id, .bitVec width),
      (formatName x id, .bitVec width)]

/-- The assertions a round makes. -/
def roundAsserts (width id : ℕ) (op : BvBinOp) (stop : ℕ) (retPrev xPrev : Term String) :
    String × String × String × ℕ → List (Term String)
  | (ret, y, x, s) =>
    [.eq (.const (formatName y id)) (.bin op xPrev (.lit width s)),
      .ite (.not (.eq (.const (formatName y id)) (.lit width stop)))
        (.eq (.const (formatName ret id)) retPrev)
        (.eq (.const (formatName ret id)) (bvadd retPrev (.lit width s))),
      .ite (.not (.eq (.const (formatName y id)) (.lit width stop)))
        (.eq (.const (formatName x id)) (.const (formatName y id)))
        (.eq (.const (formatName x id)) xPrev)]

theorem searchRound_run (retPrev xPrev : Term String) (round : String × String × String × ℕ)
    (ctx : Context String) :
    (searchRound width id op stop retPrev xPrev round).run ctx =
      ((.const (formatName round.1 id), .const (formatName round.2.2.1 id)),
        ⟨ctx.decls ++ roundDecls width id round,
          ctx.asserts ++ roundAsserts width id op stop retPrev xPrev round⟩) := by
  obtain ⟨ret, y, x, s⟩ := round
  refine Prod.ext rfl ?_
  -- the commands append one declaration or assertion at a time
  show (⟨ctx.decls ++ _ ++ _ ++ _, ctx.asserts ++ _ ++ _ ++ _⟩ : Context String) = _
  simp only [roundDecls, roundAsserts, List.append_assoc, List.cons_append, List.nil_append]

/-- The value a round's condition tests: the bits left shifted, compared with `stop`. -/
theorem eval_roundCond (stop : ℕ) {ρ : String → Value} {y : String} {u : BitVec width}
    (hy : ρ (formatName y id) = .bv width u) :
    (Term.not (.eq (.const (formatName y id)) (.lit width stop))).eval ρ =
      some (.bool !(decide (u = BitVec.ofNat width stop))) :=
  Term.eval_not (Term.eval_eq_bv (by rw [Term.eval_const, hy]) (Term.eval_lit width stop))

/-- The counter and the bits left that a round's conditions select are those of `roundValue`. -/
theorem roundValue_eq (op : BvBinOp) (stop : ℕ) (r v : BitVec width) (s : ℕ) :
    (roundValue op stop s (r, v)).1 = (if (!decide (op.apply v (BitVec.ofNat width s) =
        BitVec.ofNat width stop)) then r else r + BitVec.ofNat width s) ∧
      (roundValue op stop s (r, v)).2 = (if (!decide (op.apply v (BitVec.ofNat width s) =
        BitVec.ofNat width stop)) then op.apply v (BitVec.ofNat width s) else v) := by
  by_cases hk : op.apply v (BitVec.ofNat width s) = BitVec.ofNat width stop <;>
    simp [roundValue, hk]

/-- **Soundness of a round**: in every model, its counter and bits left have the values of
`roundValue`. -/
theorem searchRound_sound {ρ : String → Value} {retPrev xPrev : Term String} {r v : BitVec width}
    (hr : retPrev.eval ρ = some (.bv width r)) (hv : xPrev.eval ρ = some (.bv width v))
    (round : String × String × String × ℕ) {ctx : Context String}
    (h : Models ρ ((searchRound width id op stop retPrev xPrev round).run ctx).2) :
    ((searchRound width id op stop retPrev xPrev round).run ctx).1.1.eval ρ =
        some (.bv width (roundValue op stop round.2.2.2 (r, v)).1) ∧
      ((searchRound width id op stop retPrev xPrev round).run ctx).1.2.eval ρ =
        some (.bv width (roundValue op stop round.2.2.2 (r, v)).2) := by
  obtain ⟨ret, y, x, s⟩ := round
  rw [searchRound_run] at h ⊢
  have hsort : ∀ n ∈ [ret, y, x], (ρ (formatName n id)).ty = .bitVec width := by
    intro n hn
    apply h.sorts (formatName n id, .bitVec width) (List.mem_append_right _ _)
    simp only [List.mem_cons, List.not_mem_nil, or_false] at hn
    rcases hn with rfl | rfl | rfl <;> simp [roundDecls]
  have hholds : ∀ t ∈ roundAsserts width id op stop retPrev xPrev (ret, y, x, s), t.Holds ρ :=
    fun t ht => h.holds t (List.mem_append_right _ ht)
  -- the shifted bits, then the two choices their test makes
  have hy : ρ (formatName y id) = .bv width (op.apply v (BitVec.ofNat width s)) :=
    eq_of_holds_eq (hsort y (by simp)) (Term.eval_bin hv (Term.eval_lit width s) op)
      (hholds _ (by simp [roundAsserts]))
  have hc := eval_roundCond stop hy
  have hret := (Term.holds_ite_define_iff hc (hsort ret (by simp)) hr
    (Term.eval_bin hr (Term.eval_lit width s) .add)).mp (hholds _ (by simp [roundAsserts]))
  have hx := (Term.holds_ite_define_iff hc (hsort x (by simp))
    (by rw [Term.eval_const, hy]) hv).mp (hholds _ (by simp [roundAsserts]))
  obtain ⟨hret', hx'⟩ := roundValue_eq op stop r v s
  -- `bvadd` applies the `BitVec` addition
  exact ⟨by rw [Term.eval_const, hret, hret']; rfl, by rw [Term.eval_const, hx, hx']⟩

/-- The bases of the names a round declares. -/
def roundNames : String × String × String × ℕ → List String
  | (ret, y, x, _) => [ret, y, x]

/-- **Satisfiability of a round**: a model of a closed context in which the round's names are
fresh and distinct extends to a model of the round, its constants given the values of
`roundValue`. -/
theorem searchRound_sat (op : BvBinOp) (stop : ℕ) {ρ : String → Value} {ctx : Context String}
    (h : Models ρ ctx)
    (hclosed : ctx.Closed) {retPrev xPrev : Term String}
    (hrc : ∀ m ∈ retPrev.consts, m ∈ ctx.names) (hxc : ∀ m ∈ xPrev.consts, m ∈ ctx.names)
    {r v : BitVec width} (hr : retPrev.eval ρ = some (.bv width r))
    (hv : xPrev.eval ρ = some (.bv width v)) (round : String × String × String × ℕ)
    (hfresh : ∀ b ∈ roundNames round, formatName b id ∉ ctx.names)
    (hnodup : (roundNames round).Nodup) :
    ∃ ρ', Extension ρ ctx ρ' ((searchRound width id op stop retPrev xPrev round).run ctx).2 ∧
      ((searchRound width id op stop retPrev xPrev round).run ctx).1.1.eval ρ' =
        some (.bv width (roundValue op stop round.2.2.2 (r, v)).1) ∧
      ((searchRound width id op stop retPrev xPrev round).run ctx).1.2.eval ρ' =
        some (.bv width (roundValue op stop round.2.2.2 (r, v)).2) := by
  obtain ⟨ret, y, x, s⟩ := round
  rw [searchRound_run]
  simp only [roundNames, List.mem_cons, List.not_mem_nil, or_false, forall_eq_or_imp,
    forall_eq] at hfresh
  obtain ⟨hfret, hfy, hfx⟩ := hfresh
  simp only [roundNames, List.nodup_cons, List.mem_cons, List.not_mem_nil, or_false,
    not_or] at hnodup
  obtain ⟨⟨hret_y, hret_x⟩, hy_x, -⟩ := hnodup
  -- the three new names differ
  have hny : formatName y id ≠ formatName x id := by rwa [ne_eq, formatName_inj]
  have hnr : formatName ret id ≠ formatName y id := by rwa [ne_eq, formatName_inj]
  have hnr' : formatName ret id ≠ formatName x id := by rwa [ne_eq, formatName_inj]
  -- the model: the counter, the shifted bits and the bits left, each given its value
  let u := op.apply v (BitVec.ofNat width s)
  let ρ' := Function.update (Function.update (Function.update ρ (formatName ret id)
    (.bv width (roundValue op stop s (r, v)).1)) (formatName y id) (.bv width u))
    (formatName x id) (.bv width (roundValue op stop s (r, v)).2)
  have hx' : ρ' (formatName x id) = .bv width (roundValue op stop s (r, v)).2 := by
    simp only [ρ', Function.update_self]
  have hy' : ρ' (formatName y id) = .bv width u := by
    simp only [ρ', Function.update_of_ne hny, Function.update_self]
  have hret' : ρ' (formatName ret id) = .bv width (roundValue op stop s (r, v)).1 := by
    simp only [ρ', Function.update_of_ne hnr', Function.update_of_ne hnr, Function.update_self]
  have hsame : ∀ m ∈ ctx.names, ρ' m = ρ m := by
    intro m hm
    simp only [ρ', Function.update_of_ne (ne_of_mem_of_not_mem hm hfx),
      Function.update_of_ne (ne_of_mem_of_not_mem hm hfy),
      Function.update_of_ne (ne_of_mem_of_not_mem hm hfret)]
  have hr' : retPrev.eval ρ' = some (.bv width r) := by
    rw [Term.eval_congr retPrev fun m hm => hsame m (hrc m hm), hr]
  have hv' : xPrev.eval ρ' = some (.bv width v) := by
    rw [Term.eval_congr xPrev fun m hm => hsame m (hxc m hm), hv]
  have hyv : (Term.const (formatName y id)).eval ρ' = some (.bv width u) := by
    rw [Term.eval_const, hy']
  have hc := eval_roundCond stop hy'
  obtain ⟨hret_val, hx_val⟩ := roundValue_eq op stop r v s
  refine ⟨ρ', ⟨h.extend hclosed hsame ?_ ?_, hclosed.append ?_, ?_, hsame⟩,
    by rw [Term.eval_const, hret'], by rw [Term.eval_const, hx']⟩
  · -- the sorts of the new constants
    intro d hd
    simp only [roundDecls, List.mem_cons, List.not_mem_nil, or_false] at hd
    rcases hd with rfl | rfl | rfl
    · rw [hret', Value.ty_bv]
    · rw [hy', Value.ty_bv]
    · rw [hx', Value.ty_bv]
  · -- the new assertions hold
    intro t ht
    simp only [roundAsserts, List.mem_cons, List.not_mem_nil, or_false] at ht
    rcases ht with rfl | rfl | rfl
    · exact (Term.holds_eq_iff hyv (Term.eval_bin hv' (Term.eval_lit width s) op) rfl).mpr rfl
    · refine (Term.holds_ite_define_iff hc (by rw [hret', Value.ty_bv]) hr'
        (Term.eval_bin hr' (Term.eval_lit width s) .add)).mpr ?_
      rw [hret', hret_val]
      rfl
    · exact (Term.holds_ite_define_iff hc (by rw [hx', Value.ty_bv]) hyv hv').mpr
        (by rw [hx', hx_val])
  · -- the new assertions mention old constants and new ones
    intro t ht m hm
    simp only [roundAsserts, List.mem_cons, List.not_mem_nil, or_false] at ht
    simp only [roundDecls, List.map_cons, List.map_nil, List.mem_cons, List.not_mem_nil,
      or_false]
    rcases ht with rfl | rfl | rfl <;>
      simp only [Term.consts, List.append_nil, List.mem_append, List.mem_cons, List.not_mem_nil,
        or_false] at hm <;>
      grind
  · -- the old names stay declared
    intro m hm
    show m ∈ (ctx.decls ++ _).map Prod.fst
    rw [List.map_append]
    exact List.mem_append_left _ hm

theorem names_searchRound_run (retPrev xPrev : Term String)
    (round : String × String × String × ℕ) (ctx : Context String) :
    ((searchRound width id op stop retPrev xPrev round).run ctx).2.names =
      ctx.names ++ (roundNames round).map (formatName · id) := by
  obtain ⟨ret, y, x, s⟩ := round
  rw [searchRound_run]
  simp [Context.names, roundDecls, roundNames]

end Round

/-! ### The rounds, run -/

section Rounds

variable {width id : ℕ} {op : BvBinOp} {stop : ℕ}

@[simp] theorem searchRounds_nil_run (ret x : Term String) (ctx : Context String) :
    (searchRounds width id op stop ret x []).run ctx = ((ret, x), ctx) := rfl

theorem searchRounds_cons_run (retPrev xPrev : Term String) (ret y x : String) (s : ℕ)
    (rest : List (String × String × String × ℕ)) (ctx : Context String) :
    (searchRounds width id op stop retPrev xPrev ((ret, y, x, s) :: rest)).run ctx =
      (searchRounds width id op stop (.const (formatName ret id)) (.const (formatName x id))
        rest).run ((searchRound width id op stop retPrev xPrev (ret, y, x, s)).run ctx).2 :=
  rfl

/-- A model of the context the rounds leave is a model of the context they start from. -/
theorem models_of_searchRounds {ρ : String → Value} :
    ∀ {rounds : List (String × String × String × ℕ)} {ret x : Term String}
      {ctx : Context String},
      Models ρ ((searchRounds width id op stop ret x rounds).run ctx).2 → Models ρ ctx
  | [], _, _, _, h => h
  | (ret, y, x, s) :: rest, retPrev, xPrev, ctx, h => by
    rw [searchRounds_cons_run] at h
    have hround := models_of_searchRounds h
    rw [searchRound_run] at hround
    exact hround.of_append

/-- **Soundness of the rounds**: in every model, the last counter and bits left have the values
of `roundValues`. The induction is on the rounds. -/
theorem searchRounds_sound {ρ : String → Value} :
    ∀ {rounds : List (String × String × String × ℕ)} {ret x : Term String}
      {ctx : Context String} {r v : BitVec width},
      Models ρ ((searchRounds width id op stop ret x rounds).run ctx).2 →
        ret.eval ρ = some (.bv width r) → x.eval ρ = some (.bv width v) →
          ((searchRounds width id op stop ret x rounds).run ctx).1.1.eval ρ =
              some (.bv width (roundValues op stop rounds (r, v)).1) ∧
            ((searchRounds width id op stop ret x rounds).run ctx).1.2.eval ρ =
              some (.bv width (roundValues op stop rounds (r, v)).2)
  | [], _, _, _, _, _, _, hr, hv => ⟨hr, hv⟩
  | (ret, y, x, s) :: rest, retPrev, xPrev, ctx, r, v, h, hr, hv => by
    rw [searchRounds_cons_run] at h ⊢
    obtain ⟨hret, hx⟩ := searchRound_sound hr hv (ret, y, x, s) (models_of_searchRounds h)
    rw [searchRound_run] at hret hx
    exact searchRounds_sound h hret hx

/-- **Satisfiability of the rounds**: a model of a closed context in which the names of the
rounds are fresh and distinct extends to a model of the rounds, with the values of
`roundValues`. The induction is on the rounds. -/
theorem searchRounds_sat (op : BvBinOp) (stop : ℕ) :
    ∀ {rounds : List (String × String × String × ℕ)} {ρ : String → Value}
      {ctx : Context String} {ret x : Term String} {r v : BitVec width},
      Models ρ ctx → ctx.Closed → (∀ m ∈ ret.consts, m ∈ ctx.names) →
        (∀ m ∈ x.consts, m ∈ ctx.names) → ret.eval ρ = some (.bv width r) →
          x.eval ρ = some (.bv width v) →
            (∀ b ∈ rounds.flatMap roundNames, formatName b id ∉ ctx.names) →
              (rounds.flatMap roundNames).Nodup →
                ∃ ρ', Extension ρ ctx ρ' ((searchRounds width id op stop ret x rounds).run ctx).2 ∧
                  ((searchRounds width id op stop ret x rounds).run ctx).1.1.eval ρ' =
                    some (.bv width (roundValues op stop rounds (r, v)).1) ∧
                  ((searchRounds width id op stop ret x rounds).run ctx).1.2.eval ρ' =
                    some (.bv width (roundValues op stop rounds (r, v)).2)
  | [], ρ, _, _, _, _, _, h, hclosed, _, _, hr, hv, _, _ => ⟨ρ, .refl h hclosed, hr, hv⟩
  | (ret, y, x, s) :: rest, ρ, ctx, retPrev, xPrev, r, v, h, hclosed, hrc, hxc, hr, hv,
      hfresh, hnodup => by
    rw [List.flatMap_cons, List.nodup_append] at hnodup
    obtain ⟨hnodup₁, hnodup₂, hdisj⟩ := hnodup
    obtain ⟨ρ₁, hext₁, hret₁, hx₁⟩ := searchRound_sat op stop h hclosed hrc
      hxc hr hv (ret, y, x, s)
      (fun b hb => hfresh b (List.mem_append_left _ hb)) hnodup₁
    rw [searchRound_run] at hret₁ hx₁
    -- the names of the later rounds are fresh after this one
    have hfresh' : ∀ b ∈ rest.flatMap roundNames, formatName b id ∉
        ((searchRound width id op stop retPrev xPrev (ret, y, x, s)).run ctx).2.names := by
      intro b hb hmem
      rw [names_searchRound_run, List.mem_append] at hmem
      rcases hmem with hmem | hmem
      · exact hfresh b (List.mem_append_right _ hb) hmem
      · obtain ⟨b', hb', hbb'⟩ := List.mem_map.mp hmem
        rw [formatName_inj] at hbb'
        exact hdisj b' hb' b hb hbb'
    have hnew : ∀ n ∈ [ret, x], ∀ m ∈ (Term.const (formatName n id)).consts,
        m ∈ ((searchRound width id op stop retPrev xPrev (ret, y, x, s)).run ctx).2.names := by
      intro n hn m hm
      rw [names_searchRound_run]
      simp only [Term.consts, List.mem_singleton] at hm
      simp only [List.mem_cons, List.not_mem_nil, or_false] at hn
      rcases hn with rfl | rfl <;> simp [hm, roundNames]
    obtain ⟨ρ', hext, hret', hx'⟩ := searchRounds_sat op stop hext₁.models hext₁.closed
      (hnew ret (by simp)) (hnew x (by simp)) hret₁ hx₁ hfresh' hnodup₂
    rw [searchRounds_cons_run]
    exact ⟨ρ', hext₁.trans hext, hret', hx'⟩

theorem names_searchRounds_run :
    ∀ (rounds : List (String × String × String × ℕ)) (ret x : Term String)
      (ctx : Context String),
      ((searchRounds width id op stop ret x rounds).run ctx).2.names =
        ctx.names ++ (rounds.flatMap roundNames).map (formatName · id)
  | [], _, _, _ => by simp
  | (ret, y, x, s) :: rest, retPrev, xPrev, ctx => by
    rw [searchRounds_cons_run, names_searchRounds_run, names_searchRound_run, List.flatMap_cons,
      List.map_append, List.append_assoc]

/-- The counter and the bits left after the rounds mention declared constants only. -/
theorem searchRounds_consts :
    ∀ {rounds : List (String × String × String × ℕ)} {ret x : Term String}
      {ctx : Context String},
      (∀ m ∈ ret.consts, m ∈ ctx.names) → (∀ m ∈ x.consts, m ∈ ctx.names) →
        (∀ m ∈ ((searchRounds width id op stop ret x rounds).run ctx).1.1.consts,
          m ∈ ((searchRounds width id op stop ret x rounds).run ctx).2.names) ∧
        ∀ m ∈ ((searchRounds width id op stop ret x rounds).run ctx).1.2.consts,
          m ∈ ((searchRounds width id op stop ret x rounds).run ctx).2.names
  | [], _, _, _, hr, hx => ⟨hr, hx⟩
  | (ret, y, x, s) :: rest, retPrev, xPrev, ctx, _, _ => by
    rw [searchRounds_cons_run]
    -- after a round, the counter and the bits left are its own constants
    apply searchRounds_consts <;>
    · intro m hm
      rw [names_searchRound_run]
      simp only [Term.consts, List.mem_singleton] at hm
      simp [hm, roundNames]

end Rounds

/-! ### A whole search -/

section Search

variable {width id : ℕ} {op : BvBinOp} {stop : ℕ}

/-- The context the rounds of a search leave, after the zero counter. -/
abbrev searchRoundsRun (width id : ℕ) (op : BvBinOp) (stop : ℕ) (x : Term String)
    (ret0 : String) (rounds : List (String × String × String × ℕ)) (ctx : Context String) :
    (Term String × Term String) × Context String :=
  (searchRounds width id op stop (.const (formatName ret0 id)) x rounds).run
    (ctx.define (formatName ret0 id) (.bitVec width) (.lit width 0))

theorem search_run (x : Term String) (ret0 : String)
    (rounds : List (String × String × String × ℕ)) (retLast : String) (ctx : Context String) :
    (search width id op stop x ret0 rounds retLast).run ctx =
      (.const (formatName retLast id),
        (searchRoundsRun width id op stop x ret0 rounds ctx).2.defineIte
          (formatName retLast id) (.bitVec width)
          (.not (.eq (searchRoundsRun width id op stop x ret0 rounds ctx).1.2 (.lit width stop)))
          (searchRoundsRun width id op stop x ret0 rounds ctx).1.1
          (bvadd (searchRoundsRun width id op stop x ret0 rounds ctx).1.1 (.lit width 1))) :=
  rfl

/-- The value the last conditional definition of a search selects. -/
theorem lastValue_eq {w : ℕ} (st : BitVec w × BitVec w) :
    (if (!decide (st.2 = BitVec.ofNat w stop)) = true then st.1
      else BvBinOp.apply .add st.1 (BitVec.ofNat w 1)) = lastValue stop st := by
  by_cases hk : st.2 = BitVec.ofNat w stop
  · -- the bit left is `stop`: the counter grows by one, which `BvBinOp.apply .add` computes
    simp [lastValue, hk]
    rfl
  · simp [lastValue, hk]

/-- The bases of the names a search declares. -/
def searchNames (ret0 : String) (rounds : List (String × String × String × ℕ))
    (retLast : String) : List String :=
  ret0 :: (rounds.flatMap roundNames ++ [retLast])

/-- **Soundness of a search**: in every model, its result is the last value of the rounds from
zero and the operand. -/
theorem search_sound {ρ : String → Value} {x : Term String} {ret0 retLast : String}
    {rounds : List (String × String × String × ℕ)} {ctx : Context String} {v : BitVec width}
    (h : Models ρ ((search width id op stop x ret0 rounds retLast).run ctx).2)
    (hv : x.eval ρ = some (.bv width v)) :
    ((search width id op stop x ret0 rounds retLast).run ctx).1.eval ρ =
      some (.bv width (lastValue stop (roundValues op stop rounds (BitVec.ofNat width 0, v)))) := by
  rw [search_run] at h ⊢
  have hrounds := h.of_defineIte
  have hret0 : ρ (formatName ret0 id) = .bv width (BitVec.ofNat width 0) :=
    (models_of_searchRounds hrounds).eq_of_define (Term.eval_lit width 0)
  obtain ⟨hret, hx⟩ := searchRounds_sound hrounds (by rw [Term.eval_const, hret0]) hv
  have hlast := h.eq_of_defineIte (Term.eval_not (Term.eval_eq_bv hx (Term.eval_lit width stop)))
    hret (Term.eval_bin hret (Term.eval_lit width 1) .add)
  rw [Term.eval_const, hlast, lastValue_eq]

/-- A model of the context a search leaves is a model of the context it starts from. -/
theorem models_of_search {ρ : String → Value} {x : Term String} {ret0 retLast : String}
    {rounds : List (String × String × String × ℕ)} {ctx : Context String}
    (h : Models ρ ((search width id op stop x ret0 rounds retLast).run ctx).2) : Models ρ ctx := by
  rw [search_run] at h
  exact (models_of_searchRounds h.of_defineIte).of_define

theorem names_search_run (x : Term String) (ret0 : String)
    (rounds : List (String × String × String × ℕ)) (retLast : String) (ctx : Context String) :
    ((search width id op stop x ret0 rounds retLast).run ctx).2.names =
      ctx.names ++ (searchNames ret0 rounds retLast).map (formatName · id) := by
  rw [search_run, Context.names_defineIte, names_searchRounds_run, Context.names_define]
  simp [searchNames]

/-- **Satisfiability of a search**: a model of a closed context in which the operand has a value
and the names of the search are fresh and distinct extends to a model of the search. -/
theorem search_sat {ρ : String → Value} {ctx : Context String} (h : Models ρ ctx)
    (hclosed : ctx.Closed) {x : Term String} (hxc : ∀ m ∈ x.consts, m ∈ ctx.names)
    {v : BitVec width} (hv : x.eval ρ = some (.bv width v)) {ret0 retLast : String}
    {rounds : List (String × String × String × ℕ)}
    (hfresh : ∀ b ∈ searchNames ret0 rounds retLast, formatName b id ∉ ctx.names)
    (hnodup : (searchNames ret0 rounds retLast).Nodup) :
    ∃ ρ', Extension ρ ctx ρ' ((search width id op stop x ret0 rounds retLast).run ctx).2 ∧
      ((search width id op stop x ret0 rounds retLast).run ctx).1.eval ρ' =
        some (.bv width (lastValue stop (roundValues op stop rounds (BitVec.ofNat width 0, v)))) := by
  rw [search_run]
  simp only [searchNames, List.mem_cons, List.mem_append, List.not_mem_nil, or_false] at hfresh
  rw [searchNames, List.nodup_cons, List.nodup_append] at hnodup
  obtain ⟨hret0_notin, hnodup_rounds, -, hdisj⟩ := hnodup
  -- the zero counter
  have hext₀ : Extension ρ ctx
      (Function.update ρ (formatName ret0 id) (.bv width (BitVec.ofNat width 0)))
      (ctx.define (formatName ret0 id) (.bitVec width) (.lit width 0)) :=
    Extension.define h hclosed (hfresh ret0 (.inl rfl)) (by simp [Term.consts])
      (Term.eval_lit width 0) rfl
  have hret₀ : (Term.const (formatName ret0 id)).eval
      (Function.update ρ (formatName ret0 id) (.bv width (BitVec.ofNat width 0))) =
        some (.bv width (BitVec.ofNat width 0)) := by simp
  have hv₀ := (hext₀.eval_eq hxc).trans hv
  have hret₀c : ∀ m ∈ (Term.const (formatName ret0 id)).consts,
      m ∈ (ctx.define (formatName ret0 id) (.bitVec width) (.lit width 0)).names := by
    intro m hm
    rw [List.mem_singleton.mp hm, Context.names_define]
    exact List.mem_append_right _ (List.mem_singleton_self _)
  -- the rounds
  have hfresh_rounds : ∀ b ∈ rounds.flatMap roundNames,
      formatName b id ∉ (ctx.define (formatName ret0 id) (.bitVec width) (.lit width 0)).names := by
    intro b hb hmem
    rw [Context.names_define, List.mem_append, List.mem_singleton, formatName_inj] at hmem
    rcases hmem with hmem | rfl
    · exact hfresh b (.inr (.inl hb)) hmem
    · exact hret0_notin (List.mem_append_left _ hb)
  obtain ⟨ρ₁, hext₁, hret₁, hx₁⟩ := searchRounds_sat op stop hext₀.models hext₀.closed hret₀c
    (fun m hm => hext₀.names_mono m (hxc m hm)) hret₀ hv₀ hfresh_rounds hnodup_rounds
  obtain ⟨hretc, hxc₁⟩ : (∀ m ∈ (searchRoundsRun width id op stop x ret0 rounds ctx).1.1.consts,
        m ∈ (searchRoundsRun width id op stop x ret0 rounds ctx).2.names) ∧
      ∀ m ∈ (searchRoundsRun width id op stop x ret0 rounds ctx).1.2.consts,
        m ∈ (searchRoundsRun width id op stop x ret0 rounds ctx).2.names :=
    searchRounds_consts hret₀c (fun m hm => hext₀.names_mono m (hxc m hm))
  -- the last counter
  have hlast_fresh : formatName retLast id ∉
      (searchRoundsRun width id op stop x ret0 rounds ctx).2.names := by
    rw [names_searchRounds_run, Context.names_define, List.mem_append, List.mem_append,
      List.mem_singleton, formatName_inj]
    rintro ((hmem | hmem) | hmem)
    · exact hfresh retLast (.inr (.inr rfl)) hmem
    · apply hret0_notin
      rw [← hmem]
      exact List.mem_append_right _ (List.mem_singleton_self _)
    · obtain ⟨b, hb, hbb⟩ := List.mem_map.mp hmem
      rw [formatName_inj] at hbb
      exact hdisj b hb retLast (List.mem_singleton_self _) hbb
  have hext₂ := Extension.defineIte hext₁.models hext₁.closed hlast_fresh
    (fun m hm => hxc₁ m (by simpa [Term.consts] using hm)) hretc
    (fun m hm => hretc m (by simpa [Term.consts] using hm))
    (Term.eval_not (Term.eval_eq_bv hx₁ (Term.eval_lit width stop))) hret₁
    (Term.eval_bin hret₁ (Term.eval_lit width 1) .add)
  refine ⟨_, (hext₀.trans hext₁).trans hext₂, ?_⟩
  rw [Term.eval_const, Function.update_self, lastValue_eq]

end Search

/-! ### Exactness -/

section Exact

variable {x : Term String} {id : ℕ} {ctx : Context String}

/-- **A search with logical shifts against zero is exact for `clz`** when its shifts halve the
width down to one bit and its names are distinct. -/
theorem search_lshr_exact {width : ℕ} {rounds : List (String × String × String × ℕ)}
    (hhalf : Halving width (rounds.map fun r => r.2.2.2))
    (hs : ∀ r ∈ rounds, r.2.2.2 < 2 ^ width) {ret0 retLast : String}
    (hnodup : (searchNames ret0 rounds retLast).Nodup) (hclosed : ctx.Closed)
    (hx : ∀ m ∈ x.consts, m ∈ ctx.names)
    (hfresh : ∀ m ∈ declaredNames (search width id .lshr 0 x ret0 rounds retLast), m ∉ ctx.names) :
    Exact width BitVec.clz x (search width id .lshr 0 x ret0 rounds retLast) ctx := by
  -- the values of the search are those of the binary search of `LeadingZeros`
  have hvalue : ∀ v : BitVec width,
      lastValue 0 (roundValues .lshr 0 rounds (BitVec.ofNat width 0, v)) = v.clz := by
    intro v
    rw [lastValue_zero, roundValues_lshr hs]
    exact zeroLast_zeroRounds hhalf v
  constructor
  · intro ρ a h hxa
    rw [search_sound h hxa, hvalue]
  · intro ρ a h hxa
    obtain ⟨ρ', hext, -⟩ := search_sat h hclosed hx hxa
      (fresh_of_declaredNames (names_search_run x ret0 rounds retLast) hfresh) hnodup
    exact ⟨ρ', hext.models, hext.agree⟩

theorem clz64_exact (hclosed : ctx.Closed) (hx : ∀ m ∈ x.consts, m ∈ ctx.names)
    (hfresh : ∀ m ∈ declaredNames (clz64 x id), m ∉ ctx.names) :
    Exact 64 BitVec.clz x (clz64 x id) ctx := by
  rw [clz64]
  exact search_lshr_exact (by decide) (by decide) (by decide) hclosed hx hfresh

theorem clz32_exact (hclosed : ctx.Closed) (hx : ∀ m ∈ x.consts, m ∈ ctx.names)
    (hfresh : ∀ m ∈ declaredNames (clz32 x id), m ∉ ctx.names) :
    Exact 32 BitVec.clz x (clz32 x id) ctx := by
  rw [clz32]
  exact Exact.of_extract_all (by decide)
    (search_lshr_exact (by decide) (by decide) (by decide) hclosed hx hfresh)

theorem clz16_exact (hclosed : ctx.Closed) (hx : ∀ m ∈ x.consts, m ∈ ctx.names)
    (hfresh : ∀ m ∈ declaredNames (clz16 x id), m ∉ ctx.names) :
    Exact 16 BitVec.clz x (clz16 x id) ctx := by
  rw [clz16]
  exact Exact.of_extract_all (by decide)
    (search_lshr_exact (by decide) (by decide) (by decide) hclosed hx hfresh)

theorem clz8_exact (hclosed : ctx.Closed) (hx : ∀ m ∈ x.consts, m ∈ ctx.names)
    (hfresh : ∀ m ∈ declaredNames (clz8 x id), m ∉ ctx.names) :
    Exact 8 BitVec.clz x (clz8 x id) ctx := by
  rw [clz8]
  exact Exact.of_extract_all (by decide)
    (search_lshr_exact (by decide) (by decide) (by decide) hclosed hx hfresh)

/-- A bit is a leading zero exactly when it is zero. -/
theorem clz_of_width_one (a : BitVec 1) : a.clz = ~~~a := by
  apply BitVec.eq_of_toNat_eq
  rw [toNat_clz, BitVec.toNat_not]
  have ha : a.toNat < 2 := a.isLt
  obtain h | h : a.toNat = 0 ∨ a.toNat = 1 := by omega
  · rw [h, Nat.size_zero]
  · rw [h, Nat.size_one]

theorem clz1_run (ctx : Context String) :
    (clz1 x id).run ctx = (.const (formatName "clz1ret" id),
      ctx.define (formatName "clz1ret" id) (.bitVec 1) (.bvnot (.extract 0 0 x))) := rfl

/-- `clz1` defines its result as the complement of the bit. -/
theorem clz1_exact (hclosed : ctx.Closed) (hx : ∀ m ∈ x.consts, m ∈ ctx.names)
    (hfresh : ∀ m ∈ declaredNames (clz1 x id), m ∉ ctx.names) :
    Exact 1 BitVec.clz x (clz1 x id) ctx := by
  have hnot : ∀ ρ (a : BitVec 1), x.eval ρ = some (.bv 1 a) →
      (Term.bvnot (.extract 0 0 x)).eval ρ = some (.bv 1 (~~~a)) := fun _ _ hxa =>
    Term.eval_bvnot (eval_extract_all hxa (by decide))
  rw [Exact, clz1_run]
  constructor
  · intro ρ a h hxa
    rw [Term.eval_const, h.eq_of_define (hnot ρ a hxa), clz_of_width_one]
  · intro ρ a h hxa
    have hconsts : ∀ m ∈ (Term.bvnot (.extract 0 0 x)).consts, m ∈ ctx.names := hx
    have hname : formatName "clz1ret" id ∉ ctx.names :=
      hfresh _ (by simp [declaredNames, clz1_run, Context.names_define])
    have hext := Extension.define h hclosed hname hconsts (hnot ρ a hxa) rfl
    exact ⟨_, hext.models, hext.agree⟩

/-- **The encodings of count-leading-zeros are exact**: at each width that `expr_to_smt`
encodes, `exprClz` returns the result of an encoding that is, in every model, the number of
leading zeros of the operand (its width when it is zero), and whose assertions every model of
the context it starts from extends to. -/
theorem exprClz_exact {w : ℕ} (hw : w ∈ [1, 8, 16, 32, 64]) (hclosed : ctx.Closed)
    (hx : ∀ m ∈ x.consts, m ∈ ctx.names)
    (hfresh : ∀ m ∈ declaredNames (exprClz w x id), m ∉ ctx.names) :
    ∃ enc, exprClz w x id = some <$> enc ∧ Exact w BitVec.clz x enc ctx := by
  simp only [List.mem_cons, List.not_mem_nil, or_false] at hw
  rcases hw with rfl | rfl | rfl | rfl | rfl <;> simp only [exprClz, declaredNames_map] at hfresh
  · exact ⟨_, rfl, clz1_exact hclosed hx hfresh⟩
  · exact ⟨_, rfl, clz8_exact hclosed hx hfresh⟩
  · exact ⟨_, rfl, clz16_exact hclosed hx hfresh⟩
  · exact ⟨_, rfl, clz32_exact hclosed hx hfresh⟩
  · exact ⟨_, rfl, clz64_exact hclosed hx hfresh⟩

/-- A spec variable `x` of index `0`, declared as `x_0`, encoded with the id `0`. -/
theorem exprClz_exact_byte :
    let ctx : Context String := ⟨[(formatName "x" 0, .bitVec 8)], []⟩
    8 ∈ [1, 8, 16, 32, 64] ∧ ctx.Closed ∧
      (∀ m ∈ (Term.const (formatName "x" 0)).consts, m ∈ ctx.names) ∧
      (∀ m ∈ declaredNames (exprClz 8 (.const (formatName "x" 0)) 0), m ∉ ctx.names) ∧
      ∃ enc, exprClz 8 (.const (formatName "x" 0)) 0 = some <$> enc ∧
        Exact 8 BitVec.clz (.const (formatName "x" 0)) enc ctx := by
  intro ctx
  have hw : 8 ∈ [1, 8, 16, 32, 64] := by decide
  have hclosed : ctx.Closed := by simp [ctx, Context.Closed]
  have hx : ∀ m ∈ (Term.const (formatName "x" 0)).consts, m ∈ ctx.names := by
    simp [ctx, Term.consts, Context.names]
  have hfresh : ∀ m ∈ declaredNames (exprClz 8 (.const (formatName "x" 0)) 0), m ∉ ctx.names := by
    decide
  exact ⟨hw, hclosed, hx, hfresh, exprClz_exact hw hclosed hx hfresh⟩

end Exact

end Cranelift.Veri.Encoded
