import Cranelift.Veri.Encoded.Basic

/-!
# The SMT encodings of bit reversal

A model of `cranelift/isle/veri/veri/src/encoded/rev.rs` and of the arm of
`Solver::expr_to_smt` for `Expr::Rev`. Each of `rev64`, `rev32`, `rev16` and `rev8` is a chain of
stages, each declared as a constant: the first swaps the two halves of the word, and each next
one swaps the halves of blocks half as long, selected by a pair of masks, down to single bits.
`rev1` is the bit itself. The four chains are generated code of one shape, `revWord`, which each
of them applies to its own width, shifts, masks and names.

Bit `i` of a stage that swaps blocks of `s` bits is bit `swapIndex s i` of its input: `i + s` in
a low half, `i - s` in a high half. The chain composes these into `w - 1 - i`.

## Main definitions

* `Cranelift.Veri.Encoded.rev64`, `rev32`, `rev16`, `rev8`, `rev1`, and the dispatch
  `Cranelift.Veri.Encoded.exprRev`.
* `Cranelift.Veri.Encoded.StageOk` — a masked stage fits the word, decided for each stage of the
  source.

## Main results

* `Cranelift.Veri.Encoded.getLsbD_swapStage` — one masked stage moves each bit across its
  block.
* `Cranelift.Veri.Encoded.revStages_sound`, `Cranelift.Veri.Encoded.revStages_sat` — a chain of
  stages computes their composition, and its definitions are satisfiable.
* `Cranelift.Veri.Encoded.rev64_exact` and its siblings — in every model the result is the
  reverse of `x`, and every model of the context extends to the encoding.
* `Cranelift.Veri.Encoded.exprRev_exact` — the same for the widths `1, 8, 16, 32, 64` that
  `expr_to_smt` encodes.
-/

namespace Cranelift.Veri.Encoded

open Smt

/-- The first stage, `(x >> s) | (x << s)`: the halves of a word of `2 * s` bits swapped. -/
def revHalves (x : Term String) (width s : ℕ) : Term String :=
  bvor (bvlshr x (.lit width s)) (bvshl x (.lit width s))

/-- A masked stage, `((x & hi) >> s) | ((x & lo) << s)`: the halves of each block of `2 * s`
bits swapped. -/
def revStage (x : Term String) (width hi lo s : ℕ) : Term String :=
  bvor (bvlshr (bvand x (.lit width hi)) (.lit width s))
    (bvshl (bvand x (.lit width lo)) (.lit width s))

/-- The masked stages of a word, each defining the next constant, named by its base, from the
previous one; the result is the last constant. -/
def revStages (width id : ℕ) : Term String → List (String × ℕ × ℕ × ℕ) → M String (Term String)
  | x, [] => return x
  | x, (name, hi, lo, s) :: rest => do
    let y ← declare (formatName name id) (.bitVec width)
    assert (.eq y (revStage x width hi lo s))
    revStages width id y rest

/-- The shape shared by `rev64`, `rev32`, `rev16` and `rev8`: `x1` is `x` with its halves of
`half` bits swapped, and the masked stages follow. -/
def revWord (width : ℕ) (x : Term String) (id half : ℕ) (stages : List (String × ℕ × ℕ × ℕ)) :
    M String (Term String) := do
  let x1 ← declare (formatName "x1" id) (.bitVec width)
  assert (.eq x1 (revHalves x width half))
  revStages width id x1 stages

/-- `rev64`. -/
def rev64 (x : Term String) (id : ℕ) : M String (Term String) :=
  revWord 64 x id 0x20
    [("x2", 0xffff0000ffff0000, 0x0000ffff0000ffff, 0x10),
     ("x3", 0xff00ff00ff00ff00, 0x00ff00ff00ff00ff, 0x08),
     ("x4", 0xf0f0f0f0f0f0f0f0, 0x0f0f0f0f0f0f0f0f, 0x04),
     ("x5", 0xcccccccccccccccc, 0x3333333333333333, 0x02),
     ("rev64ret", 0xaaaaaaaaaaaaaaaa, 0x5555555555555555, 0x01)]

/-- `rev32`. -/
def rev32 (x : Term String) (id : ℕ) : M String (Term String) :=
  revWord 32 (.extract 31 0 x) id 0x10
    [("x2", 0xff00ff00, 0x00ff00ff, 0x08),
     ("x3", 0xf0f0f0f0, 0x0f0f0f0f, 0x04),
     ("x4", 0xcccccccc, 0x33333333, 0x02),
     ("rev32ret", 0xaaaaaaaa, 0x55555555, 0x01)]

/-- `rev16`. -/
def rev16 (x : Term String) (id : ℕ) : M String (Term String) :=
  revWord 16 (.extract 15 0 x) id 0x0008
    [("x2", 0xf0f0, 0x0f0f, 0x0004),
     ("x3", 0xcccc, 0x3333, 0x0002),
     ("rev16ret", 0xaaaa, 0x5555, 0x0001)]

/-- `rev8`. -/
def rev8 (x : Term String) (id : ℕ) : M String (Term String) :=
  revWord 8 (.extract 7 0 x) id 0x04
    [("x2", 0xcc, 0x33, 0x02),
     ("rev8ret", 0xaa, 0x55, 0x01)]

/-- `rev1`. -/
def rev1 (x : Term String) (id : ℕ) : M String (Term String) := do
  let x := Term.extract 0 0 x
  let rev1ret ← declare (formatName "rev1ret" id) (.bitVec 1)
  assert (.eq rev1ret x)
  return rev1ret

/-- The arm of `Solver::expr_to_smt` for `Expr::Rev`, on an operand of known width; other
widths are `unimplemented!`. -/
def exprRev (width : ℕ) (x : Term String) (id : ℕ) : M String (Option (Term String)) :=
  match width with
  | 1 => some <$> rev1 x id
  | 8 => some <$> rev8 x id
  | 16 => some <$> rev16 x id
  | 32 => some <$> rev32 x id
  | 64 => some <$> rev64 x id
  | _ => return none

/-! ### The stages on bit-vectors -/

/-- The bit that bit `i` of a stage swapping blocks of `s` bits comes from. -/
def swapIndex (s i : ℕ) : ℕ := if i / s % 2 = 0 then i + s else i - s

section Stages

variable {w : ℕ} (a : BitVec w)

/-- The value of `revHalves`. -/
def swapHalves (s : ℕ) : BitVec w := (a >>> s) ||| (a <<< s)

/-- The value of `revStage`. -/
def swapStage (hi lo s : ℕ) : BitVec w :=
  ((a &&& BitVec.ofNat w hi) >>> s) ||| ((a &&& BitVec.ofNat w lo) <<< s)

/-- **A masked stage** moves bit `swapIndex s i` to `i`, when the high mask selects the high
half of each block of `2 * s` bits and the low mask the low half. -/
theorem getLsbD_swapStage {hi lo s : ℕ} (hs : 0 < s)
    (hhi : ∀ j < w, (BitVec.ofNat w hi).getLsbD j = (j / s % 2 == 1))
    (hlo : ∀ j < w, (BitVec.ofNat w lo).getLsbD j = (j / s % 2 == 0)) {i : ℕ} (hiw : i < w) :
    (swapStage a hi lo s).getLsbD i = a.getLsbD (swapIndex s i) := by
  -- the high mask keeps bit `i + s` exactly when `i` is in a low half
  have hhigh : (a &&& BitVec.ofNat w hi).getLsbD (i + s) = (decide (i / s % 2 = 0) && a.getLsbD (i + s)) := by
    by_cases hw' : i + s < w
    · have hup : (i + s) / s = i / s + 1 := Nat.add_div_right i hs
      have hbit : ((i / s + 1) % 2 == 1) = decide (i / s % 2 = 0) := by
        rcases Nat.mod_two_eq_zero_or_one (i / s) with h | h
        · simp [h, show (i / s + 1) % 2 = 1 by omega]
        · simp [h, show (i / s + 1) % 2 = 0 by omega]
      rw [BitVec.getLsbD_and, hhi _ hw', hup, Bool.and_comm, hbit]
    · simp [BitVec.getLsbD_of_ge a (i + s) (by omega)]
  -- the low mask keeps bit `i - s` exactly when `i` is in a high half
  have hlow : s ≤ i →
      (a &&& BitVec.ofNat w lo).getLsbD (i - s) = (decide (i / s % 2 = 1) && a.getLsbD (i - s)) := by
    intro hge
    have hdown : (i - s) / s + 1 = i / s := by
      rw [← Nat.add_div_right _ hs, Nat.sub_add_cancel hge]
    have hbit : ((i - s) / s % 2 == 0) = decide (i / s % 2 = 1) := by
      rcases Nat.mod_two_eq_zero_or_one ((i - s) / s) with h | h
      · simp [h, show i / s % 2 = 1 by omega]
      · simp [h, show i / s % 2 = 0 by omega]
    rw [BitVec.getLsbD_and, hlo _ (by omega), Bool.and_comm, hbit]
  rw [swapStage, BitVec.getLsbD_or, BitVec.getLsbD_ushiftRight, Nat.add_comm s i, hhigh,
    BitVec.getLsbD_shiftLeft, swapIndex]
  by_cases hpar : i / s % 2 = 0
  · -- a low half: the bit comes from `i + s`
    rw [if_pos hpar]
    by_cases hge : s ≤ i
    · rw [hlow hge]
      simp [hpar]
    · simp [hpar, Nat.lt_of_not_le hge]
  · -- a high half: the bit comes from `i - s`
    have hge : s ≤ i := by
      by_contra hlt
      exact hpar (by rw [Nat.div_eq_of_lt (Nat.lt_of_not_le hlt)])
    have hodd : i / s % 2 = 1 := by omega
    rw [if_neg hpar, hlow hge]
    simp [hodd, hiw, Nat.not_lt.mpr hge]

/-- **The first stage** swaps the halves of a word of `2 * s` bits. -/
theorem getLsbD_swapHalves {s : ℕ} (hw : w = 2 * s) {i : ℕ} (hi : i < w) :
    (swapHalves a s).getLsbD i = a.getLsbD (swapIndex s i) := by
  simp only [swapHalves, BitVec.getLsbD_or, BitVec.getLsbD_ushiftRight, BitVec.getLsbD_shiftLeft, swapIndex]
  by_cases hlow : i < s
  · have hdiv : i / s = 0 := Nat.div_eq_of_lt hlow
    simp [hdiv, hlow, Nat.add_comm s i]
  · have hdiv : i / s = 1 := by
      rw [Nat.div_eq_iff (by omega)]
      omega
    simp [hdiv, hlow, hi, BitVec.getLsbD_of_ge a (s + i) (by omega)]

end Stages

/-! ### Chains of stages -/

/-- A masked stage `(name, hi, lo, s)` fits a word of `w` bits: the shift is a literal of the
word, the masks select the high and the low half of each block of `2 * s` bits, and every bit
moves within the word. -/
def StageOk (w : ℕ) : String × ℕ × ℕ × ℕ → Prop
  | (_, hi, lo, s) => 0 < s ∧ s < 2 ^ w ∧ ∀ j < w,
    (BitVec.ofNat w hi).getLsbD j = (j / s % 2 == 1) ∧
      (BitVec.ofNat w lo).getLsbD j = (j / s % 2 == 0) ∧ swapIndex s j < w

instance (w : ℕ) : DecidablePred (StageOk w) := fun _ => inferInstanceAs (Decidable (_ ∧ _ ∧ _))

/-- The values of the constants a chain of stages defines: each stage applied to the last. -/
def swapStages {w : ℕ} (a : BitVec w) : List (String × ℕ × ℕ × ℕ) → BitVec w
  | [] => a
  | (_, hi, lo, s) :: rest => swapStages (swapStage a hi lo s) rest

/-- The bit that bit `i` of a chain of stages comes from. -/
def stagesIndex : List (String × ℕ × ℕ × ℕ) → ℕ → ℕ
  | [], i => i
  | (_, _, _, s) :: rest, i => swapIndex s (stagesIndex rest i)

/-- Bit `i` of a chain of fitting stages is bit `stagesIndex stages i` of its input, which is a
bit of the word. The induction runs over the chain, from its first stage. -/
theorem getLsbD_swapStages {w : ℕ} {stages : List (String × ℕ × ℕ × ℕ)}
    (hok : ∀ st ∈ stages, StageOk w st) (a : BitVec w) {i : ℕ} (hi : i < w) :
    (swapStages a stages).getLsbD i = a.getLsbD (stagesIndex stages i) ∧
      stagesIndex stages i < w := by
  induction stages generalizing a with
  | nil => exact ⟨rfl, hi⟩
  | cons st rest ih =>
    obtain ⟨name, hi', lo, s⟩ := st
    obtain ⟨hs, -, hmask⟩ := hok _ List.mem_cons_self
    obtain ⟨hbit, hlt⟩ := ih (fun st hst => hok st (List.mem_cons_of_mem _ hst))
      (swapStage a hi' lo s)
    refine ⟨?_, (hmask _ hlt).2.2⟩
    rw [swapStages, stagesIndex, hbit, getLsbD_swapStage a hs (fun j hj => (hmask j hj).1)
      (fun j hj => (hmask j hj).2.1) hlt]

/-- **A chain of stages reverses the word** when it starts with the swap of the halves and every
bit comes from its mirror image. -/
theorem swapStages_swapHalves_eq_reverse {w s : ℕ} (hw : w = 2 * s)
    {stages : List (String × ℕ × ℕ × ℕ)} (hok : ∀ st ∈ stages, StageOk w st)
    (hidx : ∀ i < w, swapIndex s (stagesIndex stages i) = w - 1 - i) (a : BitVec w) :
    swapStages (swapHalves a s) stages = a.reverse := by
  apply BitVec.eq_of_getLsbD_eq
  intro i hi
  obtain ⟨hbit, hlt⟩ := getLsbD_swapStages hok (swapHalves a s) hi
  rw [hbit, getLsbD_swapHalves a hw hlt, hidx i hi, BitVec.getLsbD_reverse,
    BitVec.getMsbD_eq_getLsbD, decide_eq_true hi, Bool.true_and]

/-- A word of one bit is its own reverse. -/
theorem reverse_of_width_one (a : BitVec 1) : a.reverse = a := by
  apply BitVec.eq_of_getLsbD_eq
  intro i hi
  rw [BitVec.getLsbD_reverse, BitVec.getMsbD_eq_getLsbD, decide_eq_true hi, Bool.true_and,
    show 1 - 1 - i = i by omega]

/-! ### Evaluating the stages -/

section Eval

variable {ρ : String → Value} {t : Term String} {w : ℕ} {a : BitVec w}

theorem eval_revHalves (ht : t.eval ρ = some (.bv w a)) (s : ℕ) (hs : s < 2 ^ w) :
    (revHalves t w s).eval ρ = some (.bv w (swapHalves a s)) := by
  have hlit : (Term.lit w s : Term String).eval ρ = some (.bv w (BitVec.ofNat w s)) := rfl
  refine (Term.eval_bin (Term.eval_bin ht hlit .lshr) (Term.eval_bin ht hlit .shl) .or).trans ?_
  simp [BvBinOp.apply, BitVec.shiftLeft_eq', BitVec.ushiftRight_eq', Nat.mod_eq_of_lt hs,
    swapHalves]

theorem eval_revStage (ht : t.eval ρ = some (.bv w a)) (hi lo s : ℕ) (hs : s < 2 ^ w) :
    (revStage t w hi lo s).eval ρ = some (.bv w (swapStage a hi lo s)) := by
  have hlit : ∀ n, (Term.lit w n : Term String).eval ρ = some (.bv w (BitVec.ofNat w n)) :=
    fun _ => rfl
  refine (Term.eval_bin (Term.eval_bin (Term.eval_bin ht (hlit hi) .and) (hlit s) .lshr)
    (Term.eval_bin (Term.eval_bin ht (hlit lo) .and) (hlit s) .shl) .or).trans ?_
  simp [BvBinOp.apply, BitVec.shiftLeft_eq', BitVec.ushiftRight_eq', Nat.mod_eq_of_lt hs,
    swapStage]

end Eval

/-! ### The encodings, run -/

section Run

variable {w id : ℕ}

@[simp] theorem revStages_nil_run (x : Term String) (ctx : Context String) :
    (revStages w id x []).run ctx = (x, ctx) := rfl

@[simp] theorem revStages_cons_run (x : Term String) (name : String) (hi lo s : ℕ)
    (rest : List (String × ℕ × ℕ × ℕ)) (ctx : Context String) :
    (revStages w id x ((name, hi, lo, s) :: rest)).run ctx =
      (revStages w id (.const (formatName name id)) rest).run
        (ctx.define (formatName name id) (.bitVec w) (revStage x w hi lo s)) := rfl

theorem revWord_run (x : Term String) (half : ℕ) (stages : List (String × ℕ × ℕ × ℕ))
    (ctx : Context String) :
    (revWord w x id half stages).run ctx =
      (revStages w id (.const (formatName "x1" id)) stages).run
        (ctx.define (formatName "x1" id) (.bitVec w) (revHalves x w half)) := rfl

theorem rev1_run (x : Term String) (ctx : Context String) :
    (rev1 x id).run ctx = (.const (formatName "rev1ret" id),
      ctx.define (formatName "rev1ret" id) (.bitVec 1) (.extract 0 0 x)) := rfl

theorem names_revStages_run (stages : List (String × ℕ × ℕ × ℕ)) :
    ∀ (x : Term String) (ctx : Context String), ((revStages w id x stages).run ctx).2.names =
      ctx.names ++ (stages.map Prod.fst).map (formatName · id) := by
  induction stages with
  | nil => simp
  | cons st rest ih =>
    obtain ⟨name, hi, lo, s⟩ := st
    intro x ctx
    rw [revStages_cons_run, ih, Context.names_define]
    simp

theorem names_revWord_run (x : Term String) (half : ℕ) (stages : List (String × ℕ × ℕ × ℕ))
    (ctx : Context String) :
    ((revWord w x id half stages).run ctx).2.names =
      ctx.names ++ ("x1" :: stages.map Prod.fst).map (formatName · id) := by
  rw [revWord_run, names_revStages_run, Context.names_define]
  simp

/-- A model of the context a chain of stages leaves is a model of the context it started from. -/
theorem models_of_revStages {ρ : String → Value} (stages : List (String × ℕ × ℕ × ℕ)) :
    ∀ {x : Term String} {ctx : Context String},
      Models ρ ((revStages w id x stages).run ctx).2 → Models ρ ctx := by
  induction stages with
  | nil => exact fun h => h
  | cons st rest ih =>
    obtain ⟨name, hi, lo, s⟩ := st
    intro x ctx h
    rw [revStages_cons_run] at h
    exact (ih h).of_define

/-- **Soundness of a chain**: in every model, the last constant has the value of the stages
applied to the value of the first. -/
theorem revStages_sound {ρ : String → Value} (stages : List (String × ℕ × ℕ × ℕ))
    (hok : ∀ st ∈ stages, StageOk w st) :
    ∀ {x : Term String} {ctx : Context String} {a : BitVec w},
      Models ρ ((revStages w id x stages).run ctx).2 → x.eval ρ = some (.bv w a) →
        ((revStages w id x stages).run ctx).1.eval ρ = some (.bv w (swapStages a stages)) := by
  induction stages with
  | nil => exact fun _ hx => hx
  | cons st rest ih =>
    obtain ⟨name, hi, lo, s⟩ := st
    intro x ctx a h hx
    rw [revStages_cons_run] at h ⊢
    have hs : s < 2 ^ w := (hok _ List.mem_cons_self).2.1
    -- the constant this stage defines has the stage's value, in the model of the whole chain
    have hy : ρ (formatName name id) = .bv w (swapStage a hi lo s) :=
      (models_of_revStages rest h).eq_of_define (eval_revStage hx hi lo s hs)
    exact ih (fun st hst => hok st (List.mem_cons_of_mem _ hst)) h (by rw [Term.eval_const, hy])

/-- **Satisfiability of a chain**: from a model of a closed context in which the names of the
stages are fresh and distinct, defining each constant by its stage gives a model of the context
the chain leaves. -/
theorem revStages_sat (stages : List (String × ℕ × ℕ × ℕ)) (hok : ∀ st ∈ stages, StageOk w st)
    (hnodup : (stages.map Prod.fst).Nodup) :
    ∀ {ρ : String → Value} {x : Term String} {ctx : Context String} {a : BitVec w},
      Models ρ ctx → ctx.Closed → (∀ m ∈ x.consts, m ∈ ctx.names) →
        (∀ st ∈ stages, formatName st.1 id ∉ ctx.names) → x.eval ρ = some (.bv w a) →
          ∃ ρ', Models ρ' ((revStages w id x stages).run ctx).2 ∧
            ∀ m ∈ ctx.names, ρ' m = ρ m := by
  induction stages with
  | nil => exact fun h _ _ _ _ => ⟨_, h, fun _ _ => rfl⟩
  | cons st rest ih =>
    obtain ⟨name, hi, lo, s⟩ := st
    intro ρ x ctx a h hclosed hx hfresh hxa
    rw [revStages_cons_run]
    have hs : s < 2 ^ w := (hok _ List.mem_cons_self).2.1
    have hname : formatName name id ∉ ctx.names := hfresh _ List.mem_cons_self
    obtain ⟨hnotin, hnodup'⟩ := List.nodup_cons.mp hnodup
    have hconsts : ∀ m ∈ (revStage x w hi lo s).consts, m ∈ ctx.names := by
      intro m hm
      simp only [revStage, Term.consts, List.append_nil, List.mem_append, or_self] at hm
      exact hx m hm
    have hdef := h.define hclosed hname hconsts (eval_revStage hxa hi lo s hs) rfl
    -- the names of the later stages are fresh after this one
    have hfresh' : ∀ st ∈ rest, formatName st.1 id ∉
        (ctx.define (formatName name id) (.bitVec w) (revStage x w hi lo s)).names := by
      intro st hst hmem
      rw [Context.names_define, List.mem_append, List.mem_singleton, formatName_inj] at hmem
      rcases hmem with hmem | hmem
      · exact hfresh st (List.mem_cons_of_mem _ hst) hmem
      · have hmap : st.1 ∈ rest.map Prod.fst := List.mem_map_of_mem hst
        rw [hmem] at hmap
        exact hnotin hmap
    have hy : (Term.const (formatName name id)).eval
        (Function.update ρ (formatName name id) (.bv w (swapStage a hi lo s))) =
          some (.bv w (swapStage a hi lo s)) := by simp
    obtain ⟨ρ', hρ', hsame⟩ := ih (fun st hst => hok st (List.mem_cons_of_mem _ hst)) hnodup'
      hdef (hclosed.define hconsts) (by simp [Term.consts]) hfresh' hy
    refine ⟨ρ', hρ', fun m hm => ?_⟩
    rw [hsame m (by simp [hm])]
    exact Function.update_of_ne (ne_of_mem_of_not_mem hm hname) _ _

end Run

/-! ### Exactness -/

section Exact

variable {x : Term String} {id : ℕ} {ctx : Context String}

/-- **The shared shape is exact** when the stages fit the word, every bit comes from its mirror
image and the names are distinct: the result is the reverse of the operand, and the definitions
are satisfiable. -/
theorem revWord_exact {w half : ℕ} (hw : w = 2 * half) (hhalf : half < 2 ^ w)
    {stages : List (String × ℕ × ℕ × ℕ)} (hok : ∀ st ∈ stages, StageOk w st)
    (hidx : ∀ i < w, swapIndex half (stagesIndex stages i) = w - 1 - i)
    (hnodup : ("x1" :: stages.map Prod.fst).Nodup) (hclosed : ctx.Closed)
    (hx : ∀ m ∈ x.consts, m ∈ ctx.names)
    (hfresh : ∀ m ∈ declaredNames (revWord w x id half stages), m ∉ ctx.names) :
    Exact w BitVec.reverse x (revWord w x id half stages) ctx := by
  have hbases := fresh_of_declaredNames (names_revWord_run x half stages) hfresh
  have hx1 : formatName "x1" id ∉ ctx.names := hbases _ List.mem_cons_self
  rw [Exact, revWord_run]
  constructor
  · -- soundness: `x1` has the value of the first stage, and the chain does the rest
    intro ρ a h hxa
    have hx1 : ρ (formatName "x1" id) = .bv w (swapHalves a half) :=
      (models_of_revStages stages h).eq_of_define (eval_revHalves hxa half hhalf)
    rw [revStages_sound stages hok h (by rw [Term.eval_const, hx1]),
      swapStages_swapHalves_eq_reverse hw hok hidx]
  · -- satisfiability: define `x1`, then the chain from the extended model
    intro ρ a h hxa
    obtain ⟨hnotin, hnodup'⟩ := List.nodup_cons.mp hnodup
    have hconsts : ∀ m ∈ (revHalves x w half).consts, m ∈ ctx.names := by
      intro m hm
      simp only [revHalves, Term.consts, List.append_nil, List.mem_append, or_self] at hm
      exact hx m hm
    have hdef := h.define hclosed hx1 hconsts (eval_revHalves hxa half hhalf) rfl
    have hfresh' : ∀ st ∈ stages, formatName st.1 id ∉
        (ctx.define (formatName "x1" id) (.bitVec w) (revHalves x w half)).names := by
      intro st hst hmem
      rw [Context.names_define, List.mem_append, List.mem_singleton, formatName_inj] at hmem
      rcases hmem with hmem | hmem
      · exact hbases st.1 (List.mem_cons_of_mem _ (List.mem_map_of_mem hst)) hmem
      · have hmap : st.1 ∈ stages.map Prod.fst := List.mem_map_of_mem hst
        rw [hmem] at hmap
        exact hnotin hmap
    have hy : (Term.const (formatName "x1" id)).eval
        (Function.update ρ (formatName "x1" id) (.bv w (swapHalves a half))) =
          some (.bv w (swapHalves a half)) := by simp
    obtain ⟨ρ', hρ', hsame⟩ := revStages_sat stages hok hnodup' hdef (hclosed.define hconsts)
      (by simp [Term.consts]) hfresh' hy
    refine ⟨ρ', hρ', fun m hm => ?_⟩
    rw [hsame m (by simp [hm])]
    exact Function.update_of_ne (ne_of_mem_of_not_mem hm hx1) _ _

theorem rev64_exact (hclosed : ctx.Closed) (hx : ∀ m ∈ x.consts, m ∈ ctx.names)
    (hfresh : ∀ m ∈ declaredNames (rev64 x id), m ∉ ctx.names) :
    Exact 64 BitVec.reverse x (rev64 x id) ctx := by
  rw [rev64]
  exact revWord_exact (show 64 = 2 * 32 from rfl) (by decide) (by decide) (by decide) (by decide)
    hclosed hx hfresh

theorem rev32_exact (hclosed : ctx.Closed) (hx : ∀ m ∈ x.consts, m ∈ ctx.names)
    (hfresh : ∀ m ∈ declaredNames (rev32 x id), m ∉ ctx.names) :
    Exact 32 BitVec.reverse x (rev32 x id) ctx := by
  rw [rev32]
  exact Exact.of_extract_all (by decide) (revWord_exact (show 32 = 2 * 16 from rfl) (by decide)
    (by decide) (by decide) (by decide) hclosed hx hfresh)

theorem rev16_exact (hclosed : ctx.Closed) (hx : ∀ m ∈ x.consts, m ∈ ctx.names)
    (hfresh : ∀ m ∈ declaredNames (rev16 x id), m ∉ ctx.names) :
    Exact 16 BitVec.reverse x (rev16 x id) ctx := by
  rw [rev16]
  exact Exact.of_extract_all (by decide) (revWord_exact (show 16 = 2 * 8 from rfl) (by decide)
    (by decide) (by decide) (by decide) hclosed hx hfresh)

theorem rev8_exact (hclosed : ctx.Closed) (hx : ∀ m ∈ x.consts, m ∈ ctx.names)
    (hfresh : ∀ m ∈ declaredNames (rev8 x id), m ∉ ctx.names) :
    Exact 8 BitVec.reverse x (rev8 x id) ctx := by
  rw [rev8]
  exact Exact.of_extract_all (by decide) (revWord_exact (show 8 = 2 * 4 from rfl) (by decide)
    (by decide) (by decide) (by decide) hclosed hx hfresh)

/-- `rev1` defines its result as the operand, which is its own reverse. -/
theorem rev1_exact (hclosed : ctx.Closed) (hx : ∀ m ∈ x.consts, m ∈ ctx.names)
    (hfresh : ∀ m ∈ declaredNames (rev1 x id), m ∉ ctx.names) :
    Exact 1 BitVec.reverse x (rev1 x id) ctx := by
  have hextract : ∀ ρ (a : BitVec 1), x.eval ρ = some (.bv 1 a) →
      (Term.extract 0 0 x).eval ρ = some (.bv 1 a) := fun _ _ hxa =>
    eval_extract_all hxa (by decide)
  rw [Exact, rev1_run]
  constructor
  · intro ρ a h hxa
    rw [Term.eval_const, h.eq_of_define (hextract ρ a hxa), reverse_of_width_one]
  · intro ρ a h hxa
    have hconsts : ∀ m ∈ (Term.extract 0 0 x).consts, m ∈ ctx.names := hx
    have hname : formatName "rev1ret" id ∉ ctx.names :=
      hfresh _ (by simp [declaredNames, rev1_run, Context.names_define])
    refine ⟨_, h.define hclosed hname hconsts (hextract ρ a hxa) rfl, fun m hm => ?_⟩
    exact Function.update_of_ne (ne_of_mem_of_not_mem hm hname) _ _

/-- **The encodings of bit reversal are exact**: at each width that `expr_to_smt` encodes,
`exprRev` returns the result of an encoding that is, in every model, the operand with its bits
reversed, and whose definitions every model of the context it starts from extends to. -/
theorem exprRev_exact {w : ℕ} (hw : w ∈ [1, 8, 16, 32, 64]) (hclosed : ctx.Closed)
    (hx : ∀ m ∈ x.consts, m ∈ ctx.names)
    (hfresh : ∀ m ∈ declaredNames (exprRev w x id), m ∉ ctx.names) :
    ∃ enc, exprRev w x id = some <$> enc ∧ Exact w BitVec.reverse x enc ctx := by
  simp only [List.mem_cons, List.not_mem_nil, or_false] at hw
  rcases hw with rfl | rfl | rfl | rfl | rfl <;> simp only [exprRev, declaredNames_map] at hfresh
  · exact ⟨_, rfl, rev1_exact hclosed hx hfresh⟩
  · exact ⟨_, rfl, rev8_exact hclosed hx hfresh⟩
  · exact ⟨_, rfl, rev16_exact hclosed hx hfresh⟩
  · exact ⟨_, rfl, rev32_exact hclosed hx hfresh⟩
  · exact ⟨_, rfl, rev64_exact hclosed hx hfresh⟩

/-- A spec variable `x` of index `0`, declared as `x_0`, encoded with the id `0`. -/
theorem exprRev_exact_byte :
    let ctx : Context String := ⟨[(formatName "x" 0, .bitVec 8)], []⟩
    8 ∈ [1, 8, 16, 32, 64] ∧ ctx.Closed ∧
      (∀ m ∈ (Term.const (formatName "x" 0)).consts, m ∈ ctx.names) ∧
      (∀ m ∈ declaredNames (exprRev 8 (.const (formatName "x" 0)) 0), m ∉ ctx.names) ∧
      ∃ enc, exprRev 8 (.const (formatName "x" 0)) 0 = some <$> enc ∧
        Exact 8 BitVec.reverse (.const (formatName "x" 0)) enc ctx := by
  intro ctx
  have hw : 8 ∈ [1, 8, 16, 32, 64] := by decide
  have hclosed : ctx.Closed := by simp [ctx, Context.Closed]
  have hx : ∀ m ∈ (Term.const (formatName "x" 0)).consts, m ∈ ctx.names := by
    simp [ctx, Term.consts, Context.names]
  have hfresh : ∀ m ∈ declaredNames (exprRev 8 (.const (formatName "x" 0)) 0), m ∉ ctx.names := by
    decide
  exact ⟨hw, hclosed, hx, hfresh, exprRev_exact hw hclosed hx hfresh⟩

end Exact

end Cranelift.Veri.Encoded
