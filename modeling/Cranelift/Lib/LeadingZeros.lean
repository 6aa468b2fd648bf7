import Mathlib.Data.Nat.Size
import Mathlib.Algebra.Group.Nat.Defs

/-!
# Counting leading zeros and leading sign bits by binary search

The leading zeros of a word whose width is a power of two can be counted by a binary search
over halves. With `v` the bits still to search, `b` of them, shift `v` right by `s = b / 2`: if
what is left is not zero the leading zeros are in it, and otherwise `s` leading zeros are
counted and the search goes on in the low half. After the last round one bit is left, and it is
one more zero if it is zero. The same search with arithmetic shifts, against the all-ones word,
is the first search on the complement when the word is negative: it counts the leading ones.

## Main definitions

* `LeadingZeros.zeroRound`, `zeroRounds`, `zeroLast` — the search for leading zeros.
* `LeadingZeros.signRound`, `signRounds`, `signLast` — the search with arithmetic shifts.
* `LeadingZeros.Halving` — the shifts of a search over `b` bits halve it down to one bit.
* `LeadingZeros.cls` — count leading sign bits, as the ARM architecture defines it.

## Main results

* `LeadingZeros.toNat_clz` — the leading zeros of a word are its width less the size of its
  value.
* `LeadingZeros.zeroLast_zeroRounds` — the search counts `BitVec.clz`.
* `LeadingZeros.signLast_signRounds` — on a negative word, the search with arithmetic shifts
  counts the leading zeros of the complement.
* `LeadingZeros.cls_eq` — the leading sign bits are the leading zeros of the word, or of its
  complement when it is negative, less the sign bit itself.
* `LeadingZeros.clz_signRun_eq` — those leading zeros are what the two searches find.

## Implementation notes

The invariant of the search is stated with `Nat.size`, the number of significant bits: a word
of `b` bits with value `v` has `b - v.size` leading zeros, and a right shift by `s` takes `s`
from the size.
-/

namespace LeadingZeros

/-! ### Sizes -/

/-- A right shift by `s` takes `s` significant bits away. -/
theorem size_shiftRight (n s : ℕ) : (n >>> s).size = n.size - s := by
  -- both sides are at most `k` exactly when `n < 2 ^ (k + s)`
  have h : ∀ k, (n >>> s).size ≤ k ↔ n.size - s ≤ k := by
    intro k
    rw [Nat.size_le, Nat.shiftRight_eq_div_pow, Nat.div_lt_iff_lt_mul (Nat.two_pow_pos s),
      ← Nat.pow_add, ← Nat.size_le]
    omega
  exact Nat.le_antisymm ((h _).mpr (Nat.le_refl _)) ((h _).mp (Nat.le_refl _))

/-- The exclusive or of a number with its own half keeps its top bit: a Gray code has the size
of its number. -/
theorem size_xor_shiftRight_one (n : ℕ) : (n ^^^ n >>> 1).size = n.size := by
  rcases Nat.eq_zero_or_pos n with rfl | hn
  · rfl
  · have hpos : 0 < n.size := Nat.size_pos.mpr hn
    apply Nat.le_antisymm
    · rw [Nat.size_le]
      exact Nat.xor_lt_two_pow (Nat.lt_size_self n)
        (Nat.lt_of_le_of_lt (Nat.shiftRight_le n 1) (Nat.lt_size_self n))
    · -- bit `size - 1` is set in `n`, and the bit above it, which the half moves down, is not
      have htop : n.testBit (n.size - 1) = true :=
        Nat.testBit_of_two_pow_le_and_two_pow_add_one_gt
          (Nat.lt_size.mp (Nat.sub_lt hpos Nat.one_pos))
          (by rw [Nat.sub_add_cancel hpos]; exact Nat.lt_size_self n)
      have habove : n.testBit (1 + (n.size - 1)) = false := by
        rw [Nat.add_sub_cancel' hpos]
        exact Nat.testBit_lt_two_pow (Nat.lt_size_self n)
      have hbit : (n ^^^ n >>> 1).testBit (n.size - 1) = true := by
        rw [Nat.testBit_xor, Nat.testBit_shiftRight, htop, habove, Bool.true_xor, Bool.not_false]
      have hlt : n.size - 1 < (n ^^^ n >>> 1).size := Nat.lt_size.mpr (Nat.ge_two_pow_of_testBit hbit)
      omega

variable {w : ℕ}

/-- **The leading zeros** of a word are its width less the number of significant bits of its
value. -/
theorem toNat_clz (x : BitVec w) : x.clz.toNat = w - x.toNat.size := by
  by_cases hx : x = 0#w
  · -- the zero word has `w` leading zeros and no significant bit
    have hclz : x.clz = BitVec.ofNat w w := by
      rw [← BitVec.natCast_eq_ofNat]
      exact BitVec.clz_eq_iff_eq_zero.mpr hx
    rw [hclz, BitVec.toNat_ofNat, Nat.mod_eq_of_lt Nat.lt_two_pow_self, hx, BitVec.toNat_zero,
      Nat.size_zero, Nat.sub_zero]
  · have hw : 0 < w := by
      rcases Nat.eq_zero_or_pos w with rfl | hw
      · exact absurd BitVec.of_length_zero hx
      · exact hw
    have hlt : x.clz.toNat < w := by
      have h := BitVec.clz_lt_iff_ne_zero.mpr hx
      rwa [BitVec.lt_def, BitVec.natCast_eq_ofNat, BitVec.toNat_ofNat,
        Nat.mod_eq_of_lt Nat.lt_two_pow_self] at h
    have hupper : x.toNat.size ≤ w - x.clz.toNat := Nat.size_le.mpr BitVec.toNat_lt_two_pow_sub_clz
    have hlower : w - 1 - x.clz.toNat < x.toNat.size :=
      Nat.lt_size.mpr (BitVec.two_pow_sub_clz_le_toNat_of_ne_zero hw hx)
    omega

/-! ### The shifts of a search -/

/-- The shifts of a search over `b` bits: each halves the bits still to search, down to one. -/
def Halving : ℕ → List ℕ → Prop
  | b, [] => b = 1
  | b, s :: rest => b = 2 * s ∧ Halving s rest

instance decidableHalving : ∀ b l, Decidable (Halving b l)
  | b, [] => inferInstanceAs (Decidable (b = 1))
  | b, s :: rest =>
    have := decidableHalving s rest
    inferInstanceAs (Decidable (b = 2 * s ∧ Halving s rest))

example : Halving 64 [32, 16, 8, 4, 2, 1] := by decide

/-! ### The search for leading zeros -/

/-- One round, on the count so far and the bits still to search: if the bits above the lowest
`s` are not all zero the search goes on in them; otherwise `s` more zeros are counted and the
search goes on in the lowest `s` bits. -/
def zeroRound (s : ℕ) (st : BitVec w × BitVec w) : BitVec w × BitVec w :=
  if st.2 >>> s ≠ 0#w then (st.1, st.2 >>> s) else (st.1 + BitVec.ofNat w s, st.2)

/-- The rounds of a search, the widest first. -/
def zeroRounds : List ℕ → BitVec w × BitVec w → BitVec w × BitVec w
  | [], st => st
  | s :: rest, st => zeroRounds rest (zeroRound s st)

/-- The last step: the one bit left is one more zero if it is zero. -/
def zeroLast (st : BitVec w × BitVec w) : BitVec w := if st.2 ≠ 0#w then st.1 else st.1 + 1

/-- The invariant of a search for `c` leading zeros with `b` bits left: the bits left fit in
`b` bits, and the count so far and their leading zeros make `c`. -/
structure ZeroInv (c b : ℕ) (st : BitVec w × BitVec w) : Prop where
  fits : st.2.toNat < 2 ^ b
  count : st.1.toNat + (b - st.2.toNat.size) = c

section Inv

variable {c : ℕ}

/-- **A round keeps the invariant**, from `2 * s` bits left to `s`. -/
theorem zeroRound_inv (hc : c < 2 ^ w) {s : ℕ} {st : BitVec w × BitVec w}
    (h : ZeroInv c (2 * s) st) : ZeroInv c s (zeroRound s st) := by
  obtain ⟨r, v⟩ := st
  obtain ⟨hfits, hcount⟩ := h
  dsimp only at hfits hcount
  have hsize : v.toNat.size ≤ 2 * s := Nat.size_le.mpr hfits
  have hshift : (v >>> s).toNat.size = v.toNat.size - s := by
    rw [BitVec.toNat_ushiftRight, size_shiftRight]
  by_cases hy : v >>> s = 0#w
  · -- the high half is zero: `s` zeros are counted, and `v` fits in the low half
    have hlow : v.toNat.size ≤ s := by
      rw [hy, BitVec.toNat_zero, Nat.size_zero] at hshift
      omega
    have hadd : (r + BitVec.ofNat w s).toNat = r.toNat + s := by
      rw [BitVec.toNat_add, BitVec.toNat_ofNat, Nat.mod_eq_of_lt (by omega : s < 2 ^ w),
        Nat.mod_eq_of_lt (by omega)]
    rw [zeroRound, if_neg (fun h => h hy)]
    exact ⟨Nat.size_le.mp hlow, by dsimp only; omega⟩
  · -- the high half is not zero: the search goes on in it, and the count stays
    have hhigh : s < v.toNat.size := by
      have hne : (v >>> s).toNat ≠ 0 := fun h0 => hy (BitVec.eq_of_toNat_eq h0)
      have := Nat.size_pos.mpr (Nat.pos_of_ne_zero hne)
      omega
    rw [zeroRound, if_pos hy]
    constructor
    · dsimp only
      exact Nat.size_le.mp (by omega)
    · dsimp only
      omega

/-- **The rounds keep the invariant**, down to one bit left. The induction is on the shifts. -/
theorem zeroRounds_inv (hc : c < 2 ^ w) :
    ∀ {shifts : List ℕ} {b : ℕ} {st : BitVec w × BitVec w}, Halving b shifts →
      ZeroInv c b st → ZeroInv c 1 (zeroRounds shifts st)
  | [], _, _, hb, h => hb ▸ h
  | _ :: _, _, _, ⟨hb, hrest⟩, h => by
    subst hb
    rw [zeroRounds]
    exact zeroRounds_inv hc hrest (zeroRound_inv hc h)

/-- With one bit left, the last step gives the count. -/
theorem zeroLast_of_inv (hc : c < 2 ^ w) {st : BitVec w × BitVec w} (h : ZeroInv c 1 st) :
    (zeroLast st).toNat = c := by
  obtain ⟨r, v⟩ := st
  obtain ⟨hfits, hcount⟩ := h
  dsimp only at hfits hcount
  by_cases hv : v = 0#w
  · -- no bit left: one more zero
    rw [hv, BitVec.toNat_zero, Nat.size_zero] at hcount
    have hw : 0 < w := by
      rcases Nat.eq_zero_or_pos w with rfl | hw
      · rw [Nat.pow_zero] at hc
        omega
      · exact hw
    rw [zeroLast, if_neg (fun h => h hv), BitVec.toNat_add, BitVec.ofNat_eq_ofNat,
      BitVec.toNat_ofNat]
    dsimp only
    rw [Nat.one_mod_two_pow hw, Nat.mod_eq_of_lt (by omega)]
    omega
  · -- the bit left is one
    have hone : v.toNat = 1 := by
      have hne : v.toNat ≠ 0 := fun h0 => hv (BitVec.eq_of_toNat_eq h0)
      omega
    rw [hone, Nat.size_one] at hcount
    rw [zeroLast, if_pos hv]
    dsimp only
    omega

end Inv

/-- **The search counts the leading zeros**: from the count zero and the whole word, with
shifts that halve the width down to one bit. -/
theorem zeroLast_zeroRounds {shifts : List ℕ} (hw : Halving w shifts) (x : BitVec w) :
    zeroLast (zeroRounds shifts (0, x)) = x.clz := by
  have hinit : ZeroInv x.clz.toNat w (0, x) :=
    ⟨x.isLt, by rw [BitVec.ofNat_eq_ofNat, BitVec.toNat_ofNat, Nat.zero_mod, Nat.zero_add,
      toNat_clz]⟩
  exact BitVec.eq_of_toNat_eq (zeroLast_of_inv x.clz.isLt (zeroRounds_inv x.clz.isLt hw hinit))

/-! ### The search with arithmetic shifts -/

/-- One round with an arithmetic shift: if the bits above the lowest `s` are not all ones the
search goes on in them; otherwise `s` more sign bits are counted. -/
def signRound (s : ℕ) (st : BitVec w × BitVec w) : BitVec w × BitVec w :=
  if st.2.sshiftRight s ≠ BitVec.allOnes w then (st.1, st.2.sshiftRight s)
  else (st.1 + BitVec.ofNat w s, st.2)

/-- The rounds with arithmetic shifts, the widest first. -/
def signRounds : List ℕ → BitVec w × BitVec w → BitVec w × BitVec w
  | [], st => st
  | s :: rest, st => signRounds rest (signRound s st)

/-- The last step: the one bit left is one more sign bit if it is one. -/
def signLast (st : BitVec w × BitVec w) : BitVec w :=
  if st.2 ≠ BitVec.allOnes w then st.1 else st.1 + 1

section Sign

variable {u : BitVec w}

/-- On a negative word, the arithmetic shift is the complement of the logical shift of the
complement. -/
theorem sshiftRight_not (hu : u.msb = false) (s : ℕ) : (~~~u).sshiftRight s = ~~~(u >>> s) := by
  apply BitVec.eq_of_getLsbD_eq
  intro i hi
  rw [BitVec.getLsbD_sshiftRight, BitVec.getLsbD_not, BitVec.getLsbD_not,
    BitVec.getLsbD_ushiftRight, BitVec.msb_not, hu]
  by_cases hsi : s + i < w
  · simp [hi, hsi, Nat.not_le.mpr hi]
  · simp [hi, hsi, Nat.not_le.mpr hi, BitVec.getLsbD_of_ge u (s + i) (by omega),
      show 0 < w by omega]

theorem not_eq_allOnes_iff : ~~~u = BitVec.allOnes w ↔ u = 0#w := by
  rw [← BitVec.not_zero, BitVec.not_inj]

/-- A logical right shift keeps the sign bit clear. -/
theorem msb_ushiftRight_of_msb_false (hu : u.msb = false) (s : ℕ) : (u >>> s).msb = false := by
  rw [BitVec.msb_eq_false_iff_two_mul_lt] at hu ⊢
  rw [BitVec.toNat_ushiftRight]
  exact Nat.lt_of_le_of_lt (Nat.mul_le_mul_left 2 (Nat.shiftRight_le _ s)) hu

/-- A round with an arithmetic shift on a negative word is the round on its complement. -/
theorem signRound_not (hu : u.msb = false) (s : ℕ) (r : BitVec w) :
    signRound s (r, ~~~u) = ((zeroRound s (r, u)).1, ~~~(zeroRound s (r, u)).2) := by
  rw [signRound, zeroRound]
  simp only [sshiftRight_not hu, ne_eq, not_eq_allOnes_iff]
  split <;> rfl

/-- A round on a nonnegative word leaves a nonnegative word. -/
theorem msb_zeroRound (hu : u.msb = false) (s : ℕ) (r : BitVec w) :
    (zeroRound s (r, u)).2.msb = false := by
  rw [zeroRound]
  split
  · exact msb_ushiftRight_of_msb_false hu s
  · exact hu

/-- The rounds with arithmetic shifts on a negative word are the rounds on its complement. -/
theorem signRounds_not :
    ∀ (shifts : List ℕ) (r : BitVec w) {u : BitVec w}, u.msb = false →
      signRounds shifts (r, ~~~u) =
        ((zeroRounds shifts (r, u)).1, ~~~(zeroRounds shifts (r, u)).2)
  | [], _, _, _ => rfl
  | s :: rest, r, u, hu => by
    rw [signRounds, zeroRounds, signRound_not hu s r]
    exact signRounds_not rest _ (msb_zeroRound hu s r)

theorem signLast_not (r : BitVec w) : signLast (r, ~~~u) = zeroLast (r, u) := by
  simp only [signLast, zeroLast, ne_eq, not_eq_allOnes_iff]

end Sign

/-- **The search with arithmetic shifts counts the leading ones** of a negative word: the leading
zeros of its complement. -/
theorem signLast_signRounds {shifts : List ℕ} (hw : Halving w shifts) {x : BitVec w}
    (hx : x.msb = true) : signLast (signRounds shifts (0, x)) = (~~~x).clz := by
  have hu : (~~~x).msb = false := by
    have hw0 : 0 < w := by
      rcases Nat.eq_zero_or_pos w with rfl | hw0
      · simp [BitVec.msb_eq_getLsbD_last] at hx
      · exact hw0
    simp [BitVec.msb_not, hx, hw0]
  have hrounds := signRounds_not shifts 0 hu
  rw [BitVec.not_not] at hrounds
  rw [hrounds, signLast_not, zeroLast_zeroRounds hw]

/-! ### Leading sign bits -/

/-- Count leading sign bits, as the ARM architecture defines `CountLeadingSignBits`: the leading
zeros of `x<w-1:1> EOR x<w-2:0>`, the bits below the sign bit that equal the bit above them. -/
def cls (x : BitVec w) : BitVec w :=
  BitVec.ofNat w ((x >>> 1 ^^^ x).setWidth (w - 1)).clz.toNat

/-- The word whose leading zeros are the sign bit and the bits that equal it. -/
def signRun (x : BitVec w) : BitVec w := if x.msb then ~~~x else x

theorem msb_signRun (hw : 0 < w) (x : BitVec w) : (signRun x).msb = false := by
  rw [signRun]
  split
  · simp [BitVec.msb_not, *]
  · simp [*]

/-- The run word fits below the sign bit. -/
theorem toNat_signRun_lt (hw : 0 < w) (x : BitVec w) : (signRun x).toNat < 2 ^ (w - 1) := by
  have hv := msb_signRun hw x
  rw [BitVec.msb_eq_false_iff_two_mul_lt] at hv
  have : 2 ^ w = 2 * 2 ^ (w - 1) := by
    rw [← Nat.pow_succ', Nat.succ_eq_add_one, Nat.sub_add_cancel hw]
  omega

/-- The sign bit is a leading zero of the run word. -/
theorem one_le_toNat_clz_signRun (hw : 0 < w) (x : BitVec w) :
    1 ≤ (signRun x).clz.toNat := by
  have hsize : (signRun x).toNat.size ≤ w - 1 := Nat.size_le.mpr (toNat_signRun_lt hw x)
  rw [toNat_clz]
  omega

/-- The leading zeros of the run word are what the search for leading zeros finds on a
nonnegative word, and the search with arithmetic shifts on a negative one. -/
theorem clz_signRun_eq {shifts : List ℕ} (hhalf : Halving w shifts) (x : BitVec w) :
    (signRun x).clz = if x.msb then signLast (signRounds shifts (0, x))
      else zeroLast (zeroRounds shifts (0, x)) := by
  rw [signRun]
  split
  · rw [signLast_signRounds hhalf ‹_›]
  · rw [zeroLast_zeroRounds hhalf]

/-- A word is at least zero, signed, exactly when its sign bit is clear. -/
theorem zero_sle_eq (x : BitVec w) : (0#w).sle x = !x.msb := by
  have hlt : x.toNat < 2 ^ w := x.isLt
  cases hmsb : x.msb
  · rw [Bool.not_false]
    apply BitVec.sle_iff_toInt_le.mpr
    rw [BitVec.toInt_zero, BitVec.toInt_eq_msb_cond, hmsb]
    simp
  · rw [Bool.not_true, Bool.eq_false_iff]
    intro hle
    have hle' := BitVec.sle_iff_toInt_le.mp hle
    rw [BitVec.toInt_zero, BitVec.toInt_eq_msb_cond, hmsb, if_pos rfl] at hle'
    omega

/-- Complementing a word does not change which neighbouring bits differ. -/
theorem setWidth_xor_signRun (x : BitVec w) :
    (x >>> 1 ^^^ x).setWidth (w - 1) = (signRun x >>> 1 ^^^ signRun x).setWidth (w - 1) := by
  rw [signRun]
  split
  · apply BitVec.eq_of_getLsbD_eq
    intro i hi
    simp only [BitVec.getLsbD_setWidth, BitVec.getLsbD_xor, BitVec.getLsbD_ushiftRight,
      BitVec.getLsbD_not]
    simp [hi, show 1 + i < w by omega, show i < w by omega]
  · rfl

/-- **The leading sign bits** are the leading zeros of the word, or of its complement when it is
negative, less the sign bit itself. -/
theorem cls_eq (hw : 0 < w) (x : BitVec w) : cls x = (signRun x).clz - 1 := by
  have hvlt := toNat_signRun_lt hw x
  have hsize : (signRun x).toNat.size ≤ w - 1 := Nat.size_le.mpr hvlt
  -- the Gray code of the run word fits in `w - 1` bits and has its size
  have hgray : ((signRun x >>> 1 ^^^ signRun x).setWidth (w - 1)).toNat.size =
      (signRun x).toNat.size := by
    have hxor : (signRun x >>> 1 ^^^ signRun x).toNat < 2 ^ (w - 1) := by
      rw [BitVec.toNat_xor, BitVec.toNat_ushiftRight]
      exact Nat.xor_lt_two_pow (Nat.lt_of_le_of_lt (Nat.shiftRight_le _ 1) hvlt) hvlt
    rw [BitVec.toNat_setWidth, Nat.mod_eq_of_lt hxor, BitVec.toNat_xor,
      BitVec.toNat_ushiftRight, Nat.xor_comm, size_xor_shiftRight_one]
  apply BitVec.eq_of_toNat_eq
  have hclz := toNat_clz (signRun x)
  have hone : (1 : BitVec w).toNat = 1 := by
    rw [BitVec.ofNat_eq_ofNat, BitVec.toNat_ofNat, Nat.one_mod_two_pow hw]
  rw [cls, setWidth_xor_signRun, BitVec.toNat_ofNat, toNat_clz, hgray,
    BitVec.toNat_sub_of_le (by rw [BitVec.le_def, hone]; omega), hone, hclz,
    Nat.mod_eq_of_lt (by have := @Nat.lt_two_pow_self w; omega)]
  omega

end LeadingZeros
