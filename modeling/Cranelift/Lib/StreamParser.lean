import Mathlib.Data.List.Basic

/-!
# Parsers over a positioned stream

A stream is what is left of an input of tokens, together with the number of tokens read so
far; a parser reads a prefix of it and either fails with an error or returns a value and the
stream after the prefix. Parsers are `StateT` over `Except`, so that a decoder reads as the
sequence of its steps.

A grammar is a relation between token lists and values. A parser is *sound* for a grammar when
every prefix it reads derives the value it returns, and *complete* when it reads every
derivation, whatever follows it, and returns its value. Both compose through `>>=`, and a
parser that is both rejects every strict prefix of a derivation. The loop that parses until the
stream is empty then accepts exactly the concatenations of derivations.

## Main definitions

* `StreamParser.Stream`, `StreamParser.Parser` — the positioned stream and the parsers.
* `StreamParser.Sound`, `StreamParser.Complete` — a parser against a grammar.
* `StreamParser.Then`, `StreamParser.Many` — the grammars of a sequence and of a repetition.
* `StreamParser.FailsAtEnd`, `StreamParser.Exact` — rejecting truncated derivations, and the
  three properties together.
* `StreamParser.untilEmpty` — parsing until the stream is empty.

## Main results

* `StreamParser.Sound.bind`, `StreamParser.Complete.bind` — sequencing.
* `StreamParser.untilEmpty_eq_ok_iff` — what the loop accepts.
* `StreamParser.FailsAtEnd.bind`, `StreamParser.untilEmpty_append_of_error` — where a truncated
  input is rejected.
-/

namespace StreamParser

/-- The tokens left to read, and how many were read before them. -/
structure Stream (β : Type) where
  rest : List β
  position : ℕ

/-- A parser reads a prefix of a stream, or fails with an error. -/
abbrev Parser (ε β α : Type) := StateT (Stream β) (Except ε) α

variable {ε β α γ : Type}

/-- Every prefix that `p` reads derives the value it returns. -/
def Sound (G : List β → α → Prop) (p : Parser ε β α) : Prop :=
  ∀ s x s', p s = .ok (x, s') →
    ∃ b, s.rest = b ++ s'.rest ∧ s'.position = s.position + b.length ∧ G b x

/-- `p` reads every derivation, whatever follows it, and returns its value. -/
def Complete (G : List β → α → Prop) (p : Parser ε β α) : Prop :=
  ∀ b x r n, G b x → p ⟨b ++ r, n⟩ = .ok (x, ⟨r, n + b.length⟩)

/-- A derivation of `G₁` followed by one of `G₂`, which may depend on the first value. -/
def Then (G₁ : List β → α → Prop) (G₂ : α → List β → γ → Prop) (b : List β) (y : γ) : Prop :=
  ∃ b₁ b₂ x, b = b₁ ++ b₂ ∧ G₁ b₁ x ∧ G₂ x b₂ y

/-- The grammar of `pure x`: nothing is read. -/
def Returns (x : α) (b : List β) (y : α) : Prop := b = [] ∧ y = x

/-- Derivations of `G` one after another. -/
inductive Many (G : List β → α → Prop) : List β → List α → Prop
  | nil : Many G [] []
  | cons {b bs x xs} : G b x → Many G bs xs → Many G (b ++ bs) (x :: xs)

/-! ### Monotonicity and the basic parsers -/

theorem Sound.mono {G G' : List β → α → Prop} {p : Parser ε β α} (h : Sound G p)
    (hG : ∀ b x, G b x → G' b x) : Sound G' p := by
  intro s x s' hp
  obtain ⟨b, hrest, hpos, hb⟩ := h s x s' hp
  exact ⟨b, hrest, hpos, hG b x hb⟩

theorem Complete.mono {G G' : List β → α → Prop} {p : Parser ε β α} (h : Complete G p)
    (hG : ∀ b x, G' b x → G b x) : Complete G' p :=
  fun b x r n hb => h b x r n (hG b x hb)

theorem sound_pure (x : α) : Sound (Returns x) (pure x : Parser ε β α) := by
  intro s y s' hp
  obtain ⟨rfl, rfl⟩ := Prod.mk.inj (Except.ok.inj hp)
  exact ⟨[], rfl, rfl, rfl, rfl⟩

theorem complete_pure (x : α) : Complete (Returns x) (pure x : Parser ε β α) := by
  rintro b y r n ⟨rfl, rfl⟩
  rfl

theorem bind_eq_ok {p : Parser ε β α} {f : α → Parser ε β γ} {s : Stream β} {y : γ × Stream β} :
    (p >>= f) s = .ok y ↔ ∃ x s₁, p s = .ok (x, s₁) ∧ f x s₁ = .ok y := by
  change (p s).bind (fun x => f x.1 x.2) = .ok y ↔ _
  cases hp : p s with
  | error e => simp [Except.bind]
  | ok xs =>
    obtain ⟨x, s₁⟩ := xs
    simp [Except.bind]

theorem Sound.bind {G₁ : List β → α → Prop} {G₂ : α → List β → γ → Prop} {p : Parser ε β α}
    {f : α → Parser ε β γ} (h₁ : Sound G₁ p) (h₂ : ∀ x, Sound (G₂ x) (f x)) :
    Sound (Then G₁ G₂) (p >>= f) := by
  intro s y s' hp
  obtain ⟨x, s₁, hp₁, hf⟩ := bind_eq_ok.mp hp
  obtain ⟨b₁, hrest₁, hpos₁, hb₁⟩ := h₁ s x s₁ hp₁
  obtain ⟨b₂, hrest₂, hpos₂, hb₂⟩ := h₂ x s₁ y s' hf
  refine ⟨b₁ ++ b₂, by rw [hrest₁, hrest₂, List.append_assoc], ?_, b₁, b₂, x, rfl, hb₁, hb₂⟩
  rw [hpos₂, hpos₁, List.length_append, Nat.add_assoc]

theorem Complete.bind {G₁ : List β → α → Prop} {G₂ : α → List β → γ → Prop}
    {p : Parser ε β α} {f : α → Parser ε β γ} (h₁ : Complete G₁ p)
    (h₂ : ∀ x, Complete (G₂ x) (f x)) : Complete (Then G₁ G₂) (p >>= f) := by
  rintro _ y r n ⟨b₁, b₂, x, rfl, hb₁, hb₂⟩
  have hp : p ⟨b₁ ++ (b₂ ++ r), n⟩ = .ok (x, ⟨b₂ ++ r, n + b₁.length⟩) := h₁ _ _ _ _ hb₁
  rw [List.append_assoc, bind_eq_ok]
  refine ⟨x, _, hp, ?_⟩
  rw [h₂ x b₂ y r _ hb₂, List.length_append, Nat.add_assoc]

/-- `p`, then its value through `f`. -/
theorem Sound.map {G : List β → α → Prop} {p : Parser ε β α} (h : Sound G p) (f : α → γ) :
    Sound (fun b y => ∃ x, G b x ∧ y = f x) (do let x ← p; pure (f x)) := by
  refine (h.bind fun x => sound_pure (f x)).mono ?_
  rintro _ y ⟨b₁, b₂, x, rfl, hb₁, rfl, rfl⟩
  exact ⟨x, by rwa [List.append_nil], rfl⟩

theorem Complete.map {G : List β → α → Prop} {p : Parser ε β α} (h : Complete G p) (f : α → γ) :
    Complete (fun b y => ∃ x, G b x ∧ y = f x) (do let x ← p; pure (f x)) := by
  refine (h.bind fun x => complete_pure (f x)).mono ?_
  rintro b y ⟨x, hb, rfl⟩
  exact ⟨b, [], x, (List.append_nil b).symm, hb, rfl, rfl⟩

/-- A parser that never succeeds is sound for every grammar. -/
theorem sound_of_ne_ok {G : List β → α → Prop} {p : Parser ε β α}
    (h : ∀ s y, p s ≠ .ok y) : Sound G p :=
  fun s x s' hp => absurd hp (h s (x, s'))

/-! ### Determinism and strict prefixes -/

/-- On every strict prefix of a derivation, `p` fails with `eof q`, where `q` is a position
inside the prefix. -/
def FailsAtEnd (G : List β → α → Prop) (eof : ℕ → ε) (p : Parser ε β α) : Prop :=
  ∀ b x c d n, G b x → b = c ++ d → d ≠ [] →
    ∃ q, n ≤ q ∧ q ≤ n + c.length ∧ p ⟨c, n⟩ = .error (eof q)

section FailsAtEnd

variable {G G₁ : List β → α → Prop} {eof : ℕ → ε}

theorem FailsAtEnd.mono {p : Parser ε β α} {G' : List β → α → Prop} (h : FailsAtEnd G eof p)
    (hG : ∀ b x, G' b x → G b x) : FailsAtEnd G' eof p :=
  fun b x c d n hb => h b x c d n (hG b x hb)

theorem failsAtEnd_pure (x : α) : FailsAtEnd (Returns x) eof (pure x : Parser ε β α) := by
  rintro b y c d n ⟨rfl, -⟩ hcd hd
  exact absurd (List.append_eq_nil_iff.mp hcd.symm).2 hd

theorem bind_of_error {p : Parser ε β α} {f : α → Parser ε β γ} {s : Stream β} {e : ε}
    (h : p s = .error e) : (p >>= f) s = .error e := by
  change (p s).bind _ = _
  rw [h]
  rfl

theorem bind_of_ok {p : Parser ε β α} {f : α → Parser ε β γ} {s s₁ : Stream β} {x : α}
    (h : p s = .ok (x, s₁)) : (p >>= f) s = f x s₁ := by
  change (p s).bind _ = _
  rw [h]
  rfl

/-- A strict prefix of a sequence either stops inside the first derivation, or holds all of it
and stops inside the second. -/
theorem FailsAtEnd.bind {G₂ : α → List β → γ → Prop} {p : Parser ε β α} {f : α → Parser ε β γ}
    (hc₁ : Complete G₁ p) (h₁ : FailsAtEnd G₁ eof p) (h₂ : ∀ x, FailsAtEnd (G₂ x) eof (f x)) :
    FailsAtEnd (Then G₁ G₂) eof (p >>= f) := by
  rintro _ y c d n ⟨b₁, b₂, x, rfl, hb₁, hb₂⟩ hcd hd
  have hwhole : ∀ c₂, c = b₁ ++ c₂ → b₂ = c₂ ++ d →
      ∃ q, n ≤ q ∧ q ≤ n + c.length ∧ (p >>= f) ⟨c, n⟩ = .error (eof q) := by
    rintro c₂ rfl rfl
    obtain ⟨q, hq₁, hq₂, hq⟩ := h₂ x _ y c₂ d (n + b₁.length) hb₂ rfl hd
    refine ⟨q, by omega, by rw [List.length_append]; omega, ?_⟩
    rw [bind_of_ok (hc₁ b₁ x c₂ n hb₁), hq]
  rcases List.append_eq_append_iff.mp hcd with ⟨c₂, hc, hb⟩ | ⟨d₁, hb, hd₁⟩
  · exact hwhole c₂ hc hb
  · by_cases hd₁0 : d₁ = []
    · subst hd₁0
      exact hwhole [] (by rw [hb, List.append_nil, List.append_nil]) (by simp [hd₁])
    · obtain ⟨q, hq₁, hq₂, hq⟩ := h₁ b₁ x c d₁ n hb₁ hb hd₁0
      exact ⟨q, hq₁, hq₂, bind_of_error hq⟩

theorem FailsAtEnd.map {p : Parser ε β α} (hc : Complete G p) (h : FailsAtEnd G eof p)
    (f : α → γ) : FailsAtEnd (fun b y => ∃ x, G b x ∧ y = f x) eof (do let x ← p; pure (f x)) := by
  refine (h.bind hc fun x => failsAtEnd_pure (f x)).mono ?_
  rintro b y ⟨x, hb, rfl⟩
  exact ⟨b, [], x, (List.append_nil b).symm, hb, rfl, rfl⟩

end FailsAtEnd

/-! ### Exact parsers -/

/-- Every successful parse reads at least one token. -/
def Progress (p : Parser ε β α) : Prop :=
  ∀ s x s', p s = .ok (x, s') → s'.rest.length < s.rest.length

/-- `p` parses exactly the derivations of `G`, and fails with `eof` inside a truncated one. -/
structure Exact (G : List β → α → Prop) (eof : ℕ → ε) (p : Parser ε β α) : Prop where
  sound : Sound G p
  complete : Complete G p
  failsAtEnd : FailsAtEnd G eof p

section Exact

variable {G G₁ : List β → α → Prop} {eof : ℕ → ε} {p : Parser ε β α}

theorem Exact.congr {G' : List β → α → Prop} (h : Exact G eof p) (hG : ∀ b x, G b x ↔ G' b x) :
    Exact G' eof p :=
  ⟨h.sound.mono fun b x => (hG b x).mp, h.complete.mono fun b x => (hG b x).mpr,
    h.failsAtEnd.mono fun b x => (hG b x).mpr⟩

theorem exact_pure (x : α) : Exact (Returns x) eof (pure x : Parser ε β α) :=
  ⟨sound_pure x, complete_pure x, failsAtEnd_pure x⟩

theorem Exact.bind {K : α → List β → γ → Prop} {f : α → Parser ε β γ} (h₁ : Exact G₁ eof p)
    (h₂ : ∀ x, Exact (K x) eof (f x)) : Exact (Then G₁ K) eof (p >>= f) :=
  ⟨h₁.sound.bind fun x => (h₂ x).sound, h₁.complete.bind fun x => (h₂ x).complete,
    h₁.failsAtEnd.bind h₁.complete fun x => (h₂ x).failsAtEnd⟩

theorem Exact.map (h : Exact G eof p) (f : α → γ) :
    Exact (fun b y => ∃ x, G b x ∧ y = f x) eof (do let x ← p; pure (f x)) :=
  ⟨h.sound.map f, h.complete.map f, h.failsAtEnd.map h.complete f⟩

/-- A parser that never succeeds parses exactly the empty grammar. -/
theorem exact_of_ne_ok (h : ∀ s y, p s ≠ .ok y) : Exact (fun _ _ => False) eof p :=
  ⟨sound_of_ne_ok h, fun _ _ _ _ => False.elim, fun _ _ _ _ _ => False.elim⟩

/-- A sound parser whose grammar derives nothing from the empty input makes progress. -/
theorem Sound.progress (h : Sound G p) (hne : ∀ b x, G b x → b ≠ []) : Progress p := by
  intro s x s' hp
  obtain ⟨b, hrest, -, hb⟩ := h s x s' hp
  have hlen : 0 < b.length := List.length_pos_iff.mpr (hne b x hb)
  rw [hrest, List.length_append]
  omega

end Exact

/-! ### Parsing until the stream is empty -/

/-- Parse with `p` while tokens are left, collecting the values; the first error stops it. -/
def untilEmpty (p : Parser ε β α) (hp : Progress p) (s : Stream β) :
    Except ε (List α × Stream β) :=
  if s.rest.isEmpty then .ok ([], s)
  else
    match h : p s with
    | .error e => .error e
    | .ok (x, s₁) =>
      have : s₁.rest.length < s.rest.length := hp s x s₁ h
      match untilEmpty p hp s₁ with
      | .error e => .error e
      | .ok (xs, s₂) => .ok (x :: xs, s₂)
termination_by s.rest.length

variable {G : List β → α → Prop} {p : Parser ε β α}

theorem untilEmpty_nil (hp : Progress p) (n : ℕ) :
    untilEmpty p hp ⟨[], n⟩ = .ok ([], ⟨[], n⟩) := by
  rw [untilEmpty]
  rfl

theorem untilEmpty_of_ne_nil (hp : Progress p) {s : Stream β} (hs : s.rest ≠ []) :
    untilEmpty p hp s =
      (p s).bind fun xs₁ => (untilEmpty p hp xs₁.2).bind fun ys => .ok (xs₁.1 :: ys.1, ys.2) := by
  rw [untilEmpty, if_neg (by simpa using hs)]
  split
  · next e h =>
    rw [h]
    rfl
  · next x s₁ h =>
    conv_rhs => rw [h]
    change _ = (untilEmpty p hp s₁).bind _
    cases untilEmpty p hp s₁ <;> rfl

/-- A complete parser that makes progress derives nothing from the empty input. -/
theorem ne_nil_of_complete (hc : Complete G p) (hp : Progress p) {b : List β} {x : α}
    (hb : G b x) : b ≠ [] := by
  rintro rfl
  have := hp _ _ _ (hc [] x [] 0 hb)
  simp at this

/-- The loop reads every concatenation of derivations to its end. -/
theorem untilEmpty_of_many (hc : Complete G p) (hp : Progress p) {bs : List β} {xs : List α}
    (h : Many G bs xs) (n : ℕ) : untilEmpty p hp ⟨bs, n⟩ = .ok (xs, ⟨[], n + bs.length⟩) := by
  induction h generalizing n with
  | nil => exact untilEmpty_nil hp n
  | @cons b bs x xs hb _ ih =>
    have hne : b ++ bs ≠ [] := by simp [ne_nil_of_complete hc hp hb]
    rw [untilEmpty_of_ne_nil hp hne, hc b x bs n hb]
    simp only [Except.bind]
    rw [ih, List.length_append, Nat.add_assoc]

/-- What the loop accepts is a concatenation of derivations, read to its end. -/
theorem many_of_untilEmpty (hs : Sound G p) (hp : Progress p) :
    ∀ (s : Stream β) (xs : List α) (s' : Stream β), untilEmpty p hp s = .ok (xs, s') →
      Many G s.rest xs ∧ s' = ⟨[], s.position + s.rest.length⟩ := by
  -- strong induction on the tokens left, as the loop's termination
  intro s
  induction hlen : s.rest.length using Nat.strongRecOn generalizing s with
  | ind k ih =>
    intro xs s' h
    by_cases hnil : s.rest = []
    · obtain ⟨rest, n⟩ := s
      obtain rfl : rest = [] := hnil
      rw [untilEmpty_nil] at h
      obtain ⟨rfl, rfl⟩ := by simpa using h
      rw [← hlen]
      exact ⟨.nil, rfl⟩
    · rw [untilEmpty_of_ne_nil hp hnil] at h
      cases hp₁ : p s with
      | error e => simp [hp₁, Except.bind] at h
      | ok xs₁ =>
        obtain ⟨x, s₁⟩ := xs₁
        cases hr : untilEmpty p hp s₁ with
        | error e => simp [hp₁, hr, Except.bind] at h
        | ok ys =>
          obtain ⟨rfl, rfl⟩ : x :: ys.1 = xs ∧ ys.2 = s' := by
            simpa [hp₁, hr, Except.bind] using h
          obtain ⟨b, hrest, hpos, hb⟩ := hs s x s₁ hp₁
          obtain ⟨hmany, hs'⟩ := ih s₁.rest.length (hlen ▸ hp s x s₁ hp₁) s₁ rfl ys.1 ys.2 hr
          refine ⟨hrest ▸ .cons hb hmany, ?_⟩
          rw [hs', hpos, ← hlen, hrest, List.length_append, Nat.add_assoc]

/-- **What the loop accepts**: for a parser that is sound and complete for `G` and makes
progress, parsing until the stream is empty succeeds exactly on the concatenations of
derivations of `G`, with their values, and reads them to the end. -/
theorem untilEmpty_eq_ok_iff (hs : Sound G p) (hc : Complete G p) (hp : Progress p)
    (bs : List β) (n : ℕ) (xs : List α) (s' : Stream β) :
    untilEmpty p hp ⟨bs, n⟩ = .ok (xs, s') ↔ Many G bs xs ∧ s' = ⟨[], n + bs.length⟩ := by
  constructor
  · exact many_of_untilEmpty hs hp ⟨bs, n⟩ xs s'
  · rintro ⟨h, rfl⟩
    exact untilEmpty_of_many hc hp h n

/-- After a run of derivations, the loop stops with the error of the parse that fails. -/
theorem untilEmpty_append_of_error (hc : Complete G p) (hp : Progress p) {bs : List β}
    {xs : List α} (h : Many G bs xs) {c : List β} (hc0 : c ≠ []) {e : ε} (n : ℕ)
    (he : p ⟨c, n + bs.length⟩ = .error e) : untilEmpty p hp ⟨bs ++ c, n⟩ = .error e := by
  induction h generalizing n with
  | nil =>
    rw [List.length_nil, Nat.add_zero] at he
    rw [List.nil_append, untilEmpty_of_ne_nil hp (by simpa using hc0), he]
    rfl
  | @cons b bs x xs hb _ ih =>
    have hne : b ++ bs ++ c ≠ [] := by simp [hc0]
    rw [untilEmpty_of_ne_nil hp hne, List.append_assoc, hc b x (bs ++ c) n hb]
    rw [List.length_append, ← Nat.add_assoc] at he
    simp only [Except.bind]
    rw [ih (n + b.length) he]

end StreamParser
