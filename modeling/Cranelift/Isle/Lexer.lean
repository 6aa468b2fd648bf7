import Mathlib.Data.BitVec

/-!
# The ISLE lexer

A model of `cranelift/isle/isle/src/lexer.rs`, and of the way `printer.rs` writes an integer
literal back (`RcDoc::as_string(val)`, the `Display` text of an `i128`).

The Rust lexer keeps the whole source and a byte offset into it. The model keeps the unread
bytes `rest` (the source from `pos.offset` on) next to the position, so `peek_byte` is the head
of `rest` and `advance_pos` moves one byte from `rest` into the consumed prefix; the slice
`&self.src[start..end]` of a token is the list of bytes its loop consumed. A token's symbol text
is its list of bytes. An `i128` is a `BitVec 128`, so that `num as i128` and the negation
`-(num as i128)` wrap as in Rust.

## Main definitions

* `Cranelift.Isle.Pos`, `Cranelift.Isle.Lexer.Token` — source positions and tokens.
* `Cranelift.Isle.Lexer.fromStrRadix` — `u128::from_str_radix` on the digits the lexer scans.
* `Cranelift.Isle.Lexer.nextToken` — `Lexer::next_token`; `new` and `next` around it.
* `Cranelift.Isle.Lexer.printInt` — the printer's text of an integer literal.

## Main results

* `Cranelift.Isle.Lexer.skipLoop_spec` — the whitespace loop stops at a byte that starts a token.
* `Cranelift.Isle.Lexer.intValue_of_fromStrRadix` — the value of a literal from the number its
  digits denote.
* `Cranelift.Isle.Lexer.nextToken_neg_literal_positive` — a literal `-N` with `N` past `2 ^ 127`
  lexes as the positive `2 ^ 128 - N`.
-/

namespace Cranelift.Isle

/-- `Pos`: a file index and a byte offset into that file; `Default` is file 0, offset 0. -/
structure Pos where
  file : ℕ
  offset : ℕ
deriving DecidableEq, Repr, Inhabited

namespace Lexer

/-- `Token`: a token of ISLE source. -/
inductive Token where
  | lParen
  | rParen
  | symbol (s : List UInt8)
  | int (v : BitVec 128)
  | «at»
deriving DecidableEq, Repr

/-- The `Display` text of a `core::num::ParseIntError`, one constructor per kind that
`u128::from_str_radix` can report on the lexer's input. -/
inductive IntErrorKind where
  | empty
  | invalidDigit
  | posOverflow
deriving DecidableEq, Repr

/-- The message of each `ParseIntError` kind. -/
def IntErrorKind.text : IntErrorKind → String
  | .empty => "cannot parse integer from empty string"
  | .invalidDigit => "invalid digit found in string"
  | .posOverflow => "number too large to fit in target type"

/-- The messages of the lexer's `Error::ParseError`s. -/
inductive ErrorMsg where
  | parseInt (e : IntErrorKind)
  | intTooLarge
  | unexpectedCharacter (c : UInt8)
deriving DecidableEq, Repr

/-- The text of each message; a `u8` is formatted in decimal by `{c}`. -/
def ErrorMsg.text : ErrorMsg → String
  | .parseInt e => e.text
  | .intTooLarge => "integer literal cannot fit in i128"
  | .unexpectedCharacter c => s!"Unexpected character '{c}'"

/-- `Error::ParseError { msg, span: Span::new_single(pos) }`. -/
structure Error where
  msg : ErrorMsg
  pos : Pos
deriving DecidableEq, Repr

end Lexer

/-- `Lexer`: the unread bytes of the source, the position of the first of them, and the
token read ahead. -/
structure Lexer where
  rest : List UInt8
  pos : Pos
  lookahead : Option (Pos × Lexer.Token)
deriving DecidableEq, Repr

namespace Lexer

/-! ### Bytes -/

/-- `u8::is_ascii_whitespace`: tab, line feed, form feed, carriage return and space. -/
def isAsciiWhitespace (c : UInt8) : Bool :=
  c = 9 || c = 10 || c = 12 || c = 13 || c = 32

/-- `b'0'..=b'9'`. -/
def isDigit (c : UInt8) : Bool := '0'.toUInt8 ≤ c && c ≤ '9'.toUInt8

/-- `is_sym_first_char`. -/
def isSymFirstChar (c : UInt8) : Bool :=
  if c = '-'.toUInt8 || isDigit c || c = '('.toUInt8 || c = ')'.toUInt8 || c = ';'.toUInt8 then
    false
  else !isAsciiWhitespace c

/-- `is_sym_other_char`. -/
def isSymOtherChar (c : UInt8) : Bool :=
  if c = '('.toUInt8 || c = ')'.toUInt8 || c = ';'.toUInt8 || c = '@'.toUInt8 then false
  else !isAsciiWhitespace c

/-- The bytes of an integer literal's body: `b'0'..=b'9' | b'a'..=b'f' | b'A'..=b'F' | b'_'`. -/
def isIntChar (c : UInt8) : Bool :=
  isDigit c || ('a'.toUInt8 ≤ c && c ≤ 'f'.toUInt8) || ('A'.toUInt8 ≤ c && c ≤ 'F'.toUInt8) ||
    c = '_'.toUInt8

/-! ### The loops of `next_token` -/

/-- The comment loop: advance up to, not over, the next line feed. Returns the unread bytes and
the new offset. -/
def skipCommentLoop : List UInt8 → ℕ → List UInt8 × ℕ
  | [], off => ([], off)
  | c :: cs, off => if c = '\n'.toUInt8 then (c :: cs, off) else skipCommentLoop cs (off + 1)

/-- The loop that skips whitespace and comments. Every iteration reads at least one byte, so
`rest.length + 1` iterations always suffice (`skipLoop_spec`). -/
def skipLoop : ℕ → List UInt8 → ℕ → List UInt8 × ℕ
  | 0, rest, off => (rest, off)
  | _ + 1, [], off => ([], off)
  | fuel + 1, c :: cs, off =>
    if isAsciiWhitespace c then skipLoop fuel cs (off + 1)
    else if c = ';'.toUInt8 then
      let (rest, off) := skipCommentLoop (c :: cs) off
      skipLoop fuel rest off
    else (c :: cs, off)

/-- A scanning loop of `next_token`: advance while the byte satisfies `p`. Returns the bytes
read (the slice `&self.src[start..end]`), the unread bytes and the new offset. The symbol loop
and the integer loop are its instances. -/
def scanLoop (p : UInt8 → Bool) : List UInt8 → ℕ → List UInt8 × List UInt8 × ℕ
  | [], off => ([], [], off)
  | c :: cs, off =>
    if p c then
      let (s, rest, off) := scanLoop p cs (off + 1)
      (c :: s, rest, off)
    else ([], c :: cs, off)

/-! ### `u128::from_str_radix` -/

/-- `char::to_digit(radix)` on a byte. -/
def toDigit (c : UInt8) (radix : ℕ) : Option ℕ :=
  let d :=
    if isDigit c then some (c.toNat - '0'.toNat)
    else if 'a'.toUInt8 ≤ c && c ≤ 'z'.toUInt8 then some (c.toNat - 'a'.toNat + 10)
    else if 'A'.toUInt8 ≤ c && c ≤ 'Z'.toUInt8 then some (c.toNat - 'A'.toNat + 10)
    else none
  d.filter (· < radix)

/-- The digit loop of `from_str_radix`: `checked_mul` then `checked_add`, either of which
overflowing is `PosOverflow`. -/
def fromStrRadixLoop (radix : ℕ) : List UInt8 → ℕ → Except IntErrorKind ℕ
  | [], acc => .ok acc
  | c :: cs, acc =>
    match toDigit c radix with
    | none => .error .invalidDigit
    | some d =>
      if acc * radix + d < 2 ^ 128 then fromStrRadixLoop radix cs (acc * radix + d)
      else .error .posOverflow

/-- `u128::from_str_radix(s, radix)`. The lexer only passes digits, so the optional sign that
the library accepts first is not modelled. -/
def fromStrRadix (s : List UInt8) (radix : ℕ) : Except IntErrorKind ℕ :=
  if s = [] then .error .empty else fromStrRadixLoop radix s 0

/-! ### `next_token` -/

/-- `advance_pos`. -/
def advance (l : Lexer) : Lexer :=
  { l with rest := l.rest.tail, pos := { l.pos with offset := l.pos.offset + 1 } }

/-- The lexer with the unread bytes `rest` starting at offset `off`. -/
def seek (l : Lexer) (rest : List UInt8) (off : ℕ) : Lexer :=
  { l with rest, pos := { l.pos with offset := off } }

/-- The radix prefix `0x`, `0o` or `0b` of an integer literal, looked up by
`(self.src.as_bytes().get(offset), self.src.as_bytes().get(offset + 1))`. -/
def radixPrefix (l : Lexer) : ℕ × Lexer :=
  match l.rest with
  | c₀ :: c₁ :: _ =>
    if c₀ = '0'.toUInt8 then
      if c₁ = 'x'.toUInt8 || c₁ = 'X'.toUInt8 then (16, l.advance.advance)
      else if c₁ = 'o'.toUInt8 || c₁ = 'O'.toUInt8 then (8, l.advance.advance)
      else if c₁ = 'b'.toUInt8 || c₁ = 'B'.toUInt8 then (2, l.advance.advance)
      else (10, l)
    else (10, l)
  | _ => (10, l)

/-- The value of an integer literal: `u128::from_str_radix` on its digits, the `i128` range
check of a negative literal, and the cast `num as i128` (negated for a negative literal). -/
def intValue (startPos : Pos) (neg : Bool) (s : List UInt8) (radix : ℕ) :
    Except Error (BitVec 128) :=
  match fromStrRadix s radix with
  | .error e => .error ⟨.parseInt e, startPos⟩
  | .ok num =>
    if neg && num = 0x80000000000000000000000000000000 then .error ⟨.intTooLarge, startPos⟩
    else .ok (if neg then -BitVec.ofNat 128 num else BitVec.ofNat 128 num)

/-- The integer arm of `next_token`, entered on a digit or `-`: the sign, the radix prefix and
the digits (`s.replace('_', "")` drops the underscores), then their value. -/
def lexInt (l : Lexer) : Except Error (Option (Pos × Token) × Lexer) :=
  let startPos := l.pos
  let neg := l.rest.head? = some '-'.toUInt8
  let l := if neg then l.advance else l
  let (radix, l) := l.radixPrefix
  let (s, rest, off) := scanLoop isIntChar l.rest l.pos.offset
  (intValue startPos neg (s.filter (· ≠ '_'.toUInt8)) radix).map fun v =>
    (some (startPos, .int v), l.seek rest off)

/-- `next_token`: skip whitespace and comments, then read one token. `none` is the end of the
input. -/
def nextToken (l : Lexer) : Except Error (Option (Pos × Token) × Lexer) :=
  let (rest, off) := skipLoop (l.rest.length + 1) l.rest l.pos.offset
  let l := l.seek rest off
  match l.rest with
  | [] => .ok (none, l)
  | c :: _ =>
    let charPos := l.pos
    if c = '('.toUInt8 then .ok (some (charPos, .lParen), l.advance)
    else if c = ')'.toUInt8 then .ok (some (charPos, .rParen), l.advance)
    else if c = '@'.toUInt8 then .ok (some (charPos, .at), l.advance)
    else if isSymFirstChar c then
      let (s, rest, off) := scanLoop isSymOtherChar l.rest l.pos.offset
      .ok (some (charPos, .symbol s), l.seek rest off)
    else if isDigit c || c = '-'.toUInt8 then lexInt l
    else .error ⟨.unexpectedCharacter c, l.pos⟩

/-- `reload`: read ahead one token when none is held and input remains (`offset < src.len()`
is `rest ≠ []`). -/
def reload (l : Lexer) : Except Error Lexer :=
  if l.lookahead.isNone && l.rest ≠ [] then do
    let (tok, l) ← l.nextToken
    return { l with lookahead := tok }
  else .ok l

/-- `Lexer::new(file, src)`. -/
def new (file : ℕ) (src : List UInt8) : Except Error Lexer :=
  reload ⟨src, ⟨file, 0⟩, none⟩

/-- `next`: return the token read ahead and read the following one. -/
def next (l : Lexer) : Except Error (Option (Pos × Token) × Lexer) := do
  let tok := l.lookahead
  let l ← reload { l with lookahead := none }
  return (tok, l)

/-- The tokens of the whole input, as the test helper `lex` collects them: `next` until it
returns `None`, at most `fuel` times. -/
def lexLoop : ℕ → Lexer → Except Error (List Token)
  | 0, _ => .ok []
  | fuel + 1, l => do
    match ← l.next with
    | (none, _) => return []
    | (some (_, tok), l) => return tok :: (← lexLoop fuel l)

/-- The tokens of a source text; every call of `next` reads at least one byte, so
`src.length + 1` calls suffice. -/
def lex (src : List UInt8) : Except Error (List Token) := do
  lexLoop (src.length + 1) (← new 0 src)

/-! ### How the printer writes an integer -/

/-- `RcDoc::as_string(val)` for an `i128`: its `Display` text, a minus sign and the decimal
digits of its absolute value. -/
def printInt (v : BitVec 128) : List UInt8 :=
  let digits := (Nat.toDigits 10 v.toInt.natAbs).map Char.toUInt8
  if v.toInt < 0 then '-'.toUInt8 :: digits else digits

/-! ### The whitespace loop -/

lemma skipCommentLoop_suffix :
    ∀ (rest : List UInt8) (off : ℕ), (skipCommentLoop rest off).1 <:+ rest
  | [], _ => by simp [skipCommentLoop]
  | c :: cs, off => by
    unfold skipCommentLoop
    split_ifs
    · exact List.suffix_refl _
    · exact (skipCommentLoop_suffix cs (off + 1)).trans (List.suffix_cons c cs)

/-- From a comment start, the comment loop reads at least the `;`. -/
lemma skipCommentLoop_length_lt (cs : List UInt8) (off : ℕ) :
    (skipCommentLoop (';'.toUInt8 :: cs) off).1.length < cs.length + 1 := by
  have h : (';'.toUInt8 : UInt8) ≠ '\n'.toUInt8 := by decide
  rw [skipCommentLoop, if_neg h]
  have := (skipCommentLoop_suffix cs (off + 1)).length_le
  omega

/-- **The whitespace loop stops at a token.** With one more iteration than there are unread
bytes, the loop ends at the end of the input or at a byte that is neither whitespace nor `;`.

**Proof sketch.** By induction on the fuel: an iteration either stops at such a byte or reads
at least one byte, the comment loop reading its `;` first. -/
lemma skipLoop_spec : ∀ (fuel : ℕ) (rest : List UInt8) (off : ℕ), rest.length < fuel →
    ∀ c cs, (skipLoop fuel rest off).1 = c :: cs →
      isAsciiWhitespace c = false ∧ c ≠ ';'.toUInt8
  | 0, _, _, h => absurd h (Nat.not_lt_zero _)
  | _ + 1, [], _, _ => by simp [skipLoop]
  | fuel + 1, d :: ds, off, h => by
    intro c cs hc
    unfold skipLoop at hc
    by_cases hws : isAsciiWhitespace d
    · rw [if_pos hws] at hc
      exact skipLoop_spec fuel ds (off + 1) (by simp at h; omega) c cs hc
    · rw [if_neg hws] at hc
      by_cases hsc : d = ';'.toUInt8
      · rw [if_pos hsc] at hc
        subst hsc
        have hlt := skipCommentLoop_length_lt ds off
        generalize hq : skipCommentLoop (';'.toUInt8 :: ds) off = q at hc hlt
        obtain ⟨r, o⟩ := q
        exact skipLoop_spec fuel r o (by simp at h hlt; omega) c cs hc
      · rw [if_neg hsc] at hc
        obtain ⟨rfl, rfl⟩ := List.cons.inj hc
        exact ⟨by simpa using hws, hsc⟩

/-! ### The value of an integer literal -/

/-- The digit loop never goes past `u128::MAX`. -/
lemma fromStrRadixLoop_lt {radix : ℕ} : ∀ {s : List UInt8} {acc N : ℕ}, acc < 2 ^ 128 →
    fromStrRadixLoop radix s acc = .ok N → N < 2 ^ 128
  | [], acc, N, hacc, h => by
    simp only [fromStrRadixLoop, Except.ok.injEq] at h
    exact h ▸ hacc
  | c :: cs, acc, N, _, h => by
    unfold fromStrRadixLoop at h
    split at h
    · cases h
    · split_ifs at h with hlt
      exact fromStrRadixLoop_lt hlt h

lemma lt_of_fromStrRadix {s : List UInt8} {radix N : ℕ} (h : fromStrRadix s radix = .ok N) :
    N < 2 ^ 128 := by
  unfold fromStrRadix at h
  split at h
  · cases h
  · exact fromStrRadixLoop_lt (Nat.two_pow_pos 128) h

/-- **The value of an integer literal**, from the number `N` its digits denote: `N` as an `i128`,
or its negation for a literal with `-`; the range check refuses `N = 2 ^ 127` only. -/
lemma intValue_of_fromStrRadix {startPos : Pos} {neg : Bool} {s : List UInt8} {radix N : ℕ}
    (h : fromStrRadix s radix = .ok N) :
    intValue startPos neg s radix =
      if neg = true ∧ N = 2 ^ 127 then .error ⟨.intTooLarge, startPos⟩
      else .ok (if neg then -BitVec.ofNat 128 N else BitVec.ofNat 128 N) := by
  have hmin : (0x80000000000000000000000000000000 : ℕ) = 2 ^ 127 := by decide
  simp [intValue, h, hmin]

/-- `-(N as i128)` for `N` below `2 ^ 128` is `2 ^ 128 - N`, wrapped. -/
lemma neg_ofNat_of_lt {N : ℕ} (hN : N < 2 ^ 128) :
    -BitVec.ofNat 128 N = BitVec.ofNat 128 (2 ^ 128 - N) := by
  apply BitVec.eq_of_toNat_eq
  rw [BitVec.toNat_neg, BitVec.toNat_ofNat, BitVec.toNat_ofNat, Nat.mod_eq_of_lt hN]

/-- An `i128` below `2 ^ 127` reads as itself. -/
lemma toInt_ofNat_of_lt {m : ℕ} (hm : 2 * m < 2 ^ 128) : (BitVec.ofNat 128 m).toInt = m := by
  rw [BitVec.toInt_eq_toNat_cond, BitVec.toNat_ofNat, Nat.mod_eq_of_lt (by omega), if_pos hm]

/-- A `-` after the whitespace starts an integer literal. -/
lemma nextToken_of_minus {l : Lexer} {t : List UInt8} (hl : l.rest = '-'.toUInt8 :: t) :
    l.nextToken = l.lexInt := by
  have hskip : skipLoop (l.rest.length + 1) l.rest l.pos.offset = (l.rest, l.pos.offset) := by
    rw [hl]
    simp +decide [skipLoop]
  have hseek : l.seek l.rest l.pos.offset = l := rfl
  simp only [nextToken, hskip, hseek]
  rw [hl]
  simp +decide

/-- **A negative literal past `i128::MIN` lexes as a positive integer.** For `-`, a radix prefix
and digits denoting `N` with `2 ^ 127 < N`, the range check refuses only `N = 2 ^ 127`, and
`-(N as i128)` wraps to the positive `2 ^ 128 - N`: `-0xffffffffffffffffffffffffffffffff` is
`Int(1)`. -/
theorem nextToken_neg_literal_positive {l l₁ : Lexer} {t s rest : List UInt8} {radix off N : ℕ}
    (hl : l.rest = '-'.toUInt8 :: t) (hpre : l.advance.radixPrefix = (radix, l₁))
    (hscan : scanLoop isIntChar l₁.rest l₁.pos.offset = (s, rest, off))
    (hN : fromStrRadix (s.filter (· ≠ '_'.toUInt8)) radix = .ok N) (hbig : 2 ^ 127 < N) :
    l.nextToken = .ok (some (l.pos, .int (BitVec.ofNat 128 (2 ^ 128 - N))), l₁.seek rest off) ∧
      0 < (BitVec.ofNat 128 (2 ^ 128 - N)).toInt := by
  have hlt := lt_of_fromStrRadix hN
  have hval : intValue l.pos true (s.filter (· ≠ '_'.toUInt8)) radix =
      .ok (BitVec.ofNat 128 (2 ^ 128 - N)) := by
    rw [intValue_of_fromStrRadix hN, if_neg (fun h => Nat.ne_of_gt hbig h.2), if_pos rfl,
      neg_ofNat_of_lt hlt]
  refine ⟨?_, ?_⟩
  · rw [nextToken_of_minus hl]
    simp only [ne_eq, decide_not] at hval
    simp [lexInt, hl, hpre, hscan, hval, Except.map]
  · rw [toInt_ofNat_of_lt (by omega)]
    omega

/-- `-0xffffffffffffffffffffffffffffffff`, the literal of `N = u128::MAX`, is `Int(1)`. -/
theorem nextToken_neg_literal_positive_max :
    lex ("-0xffffffffffffffffffffffffffffffff".toList.map Char.toUInt8) = .ok [.int 1#128] ∧
      (⟨"-0xffffffffffffffffffffffffffffffff".toList.map Char.toUInt8, ⟨0, 0⟩, none⟩ :
        Lexer).nextToken = .ok (some (⟨0, 0⟩, .int (BitVec.ofNat 128 (2 ^ 128 - (2 ^ 128 - 1)))),
          ⟨[], ⟨0, 35⟩, none⟩) ∧
      0 < (BitVec.ofNat 128 (2 ^ 128 - (2 ^ 128 - 1))).toInt :=
  ⟨by decide, nextToken_neg_literal_positive rfl rfl rfl rfl (by decide)⟩

/-- **The printer's text of `i128::MIN` does not lex.** The literal
`0x80000000000000000000000000000000` is read as `i128::MIN`; the printer writes that value in
decimal as `-170141183460469231731687303715884105728`, and a rule holding that text is rejected
with `integer literal cannot fit in i128` at the literal. -/
theorem printInt_intMin_rejected :
    lex ("(rule (f) 0x80000000000000000000000000000000)".toList.map Char.toUInt8) =
        .ok [.lParen, .symbol ("rule".toList.map Char.toUInt8), .lParen,
          .symbol ("f".toList.map Char.toUInt8), .rParen,
          .int 0x80000000000000000000000000000000#128, .rParen] ∧
      printInt 0x80000000000000000000000000000000#128 =
        "-170141183460469231731687303715884105728".toList.map Char.toUInt8 ∧
      lex ("(rule (f) -170141183460469231731687303715884105728)".toList.map Char.toUInt8) =
        .error ⟨.intTooLarge, ⟨0, 10⟩⟩ := by
  decide

end Lexer

end Cranelift.Isle
