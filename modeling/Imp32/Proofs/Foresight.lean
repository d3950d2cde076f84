import Imp32.Proofs.Reading
import Mathlib.Computability.Language

/-!
# Reading a language with foresight

An action reads a language with foresight if what it does depends on the tokens it takes and on the
kind of the next one, and if it fails no earlier and no later than it must: at the end of tokens
that could go on to a word of the language, or at the token after which they no longer can.

Every way in which the parsers are put together keeps this. A sequence of actions reads the product
of their languages, a choice made by looking at the next token reads one language or the other.
-/

namespace Imp32

open scoped Computability

/-! ## Languages of tokens -/

/-- Some word of the language begins with the tokens. -/
def Viable (L : Language Token) (ts : List Token) : Prop := ∃ us, ts ++ us ∈ L

/-- The language has a word. -/
class Productive (L : Language Token) : Prop where
  /-- A word of the language. -/
  exists_mem : ∃ w, w ∈ L

/-- One token, of one of the given kinds. -/
def oneOf (kinds : Token.Kind → Prop) : Language Token := {w | ∃ t : Token, kinds t.kind ∧ w = [t]}

/-- One token of the given kind. -/
def just (kind : Token.Kind) : Language Token := oneOf (· = kind)

section Languages

variable {L M : Language Token}

instance (kind : Token.Kind) : Productive (just kind) := ⟨[⟨kind, 0⟩], ⟨kind, 0⟩, rfl, rfl⟩

instance : Productive (1 : Language Token) := ⟨[], rfl⟩

instance [Productive L] [Productive M] : Productive (L * M) := by
  obtain ⟨a, ha⟩ := Productive.exists_mem (L := L)
  obtain ⟨b, hb⟩ := Productive.exists_mem (L := M)
  exact ⟨a ++ b, Language.append_mem_mul ha hb⟩

instance : Productive (1 + L) := ⟨[], .inl rfl⟩

instance : Productive L∗ := ⟨[], Language.nil_mem_kstar L⟩

theorem Viable.mono {ts : List Token} (h : Viable L ts) (hLM : ∀ w ∈ L, w ∈ M) : Viable M ts := by
  obtain ⟨us, hus⟩ := h
  exact ⟨us, hLM _ hus⟩

theorem Viable.mul_right {ts : List Token} [Productive M] (h : Viable L ts) :
    Viable (L * M) ts := by
  obtain ⟨us, hus⟩ := h
  obtain ⟨w, hw⟩ := Productive.exists_mem (L := M)
  exact ⟨us ++ w, by rw [← List.append_assoc]; exact Language.append_mem_mul hus hw⟩

theorem Viable.append {ts us : List Token} (hts : ts ∈ L) (h : Viable M us) :
    Viable (L * M) (ts ++ us) := by
  obtain ⟨vs, hvs⟩ := h
  exact ⟨vs, by rw [List.append_assoc]; exact Language.append_mem_mul hts hvs⟩

end Languages

/-! ## Looking at the next token -/

/-- The next tokens are of one kind, or there is none on either side. -/
def SameNext (ts us : List Token) : Prop := ts.head?.map Token.kind = us.head?.map Token.kind

theorem SameNext.append {ts us : List Token} (h : SameNext ts us) (init : List Token) :
    SameNext (init ++ ts) (init ++ us) := by
  cases init with
  | nil => exact h
  | cons t init => rfl

theorem sameNext_append_cons (init : List Token) (t : Token) (ts us : List Token) :
    SameNext (init ++ t :: ts) (init ++ t :: us) := by
  cases init <;> rfl

namespace SyntaxError

/-- The error shows at the token. -/
def ShowsAt (e : SyntaxError) (t : Token) : Prop :=
  e.line = t.line ∧
    match e.cause with
    | .unexpected found | .expected _ found => found = t.kind
    | .unclosedParen => t.kind ≠ .symbol .rightParen
    | .literalTooLarge => ∃ n, t.kind = .integer n ∧ Value.ofLiteral? n = none
    | .unexpectedEnd | .unrecognised _ => False

/-- The error shows at the end of the tokens. A line in it that is not replaced is one of those
given. -/
def ShowsAtEnd (lines : Nat → Prop) (e : SyntaxError) : Prop :=
  match e.cause with
  | .unexpectedEnd => True
  | .unclosedParen => lines e.line
  | _ => False

theorem ShowsAtEnd.mono {lines lines' : Nat → Prop} {e : SyntaxError} (h : e.ShowsAtEnd lines)
    (hl : ∀ l, lines l → lines' l) : e.ShowsAtEnd lines' := by
  unfold ShowsAtEnd at h ⊢
  split at h
  · trivial
  · exact hl _ h
  · exact h

end SyntaxError

/-! ## Foresight -/

/-- On the tokens `ts`, the action reads the language with foresight. The lines are those of tokens
taken before. -/
structure Foresees {α : Type} (lines : Nat → Prop) (L : Language Token) (x : Reading α)
    (ts : List Token) : Prop where
  /-- A success has taken a word, and hangs on the kind of the next token only. -/
  ok : ∀ {v rest}, x ts = (.ok v, rest) →
    ∃ used ∈ L, ts = used ++ rest ∧
      ∀ rest', SameNext rest rest' → x (used ++ rest') = (.ok v, rest')
  /-- A failure shows at the end of tokens that begin a word, or at the token after some that do;
  and then nothing hangs on the tokens after it. -/
  error : ∀ {e rest}, x ts = (.error e, rest) →
    (rest = [] ∧ e.ShowsAtEnd (fun l => lines l ∨ ∃ t ∈ ts, t.line = l) ∧ Viable L ts) ∨
      ∃ init t, ts = init ++ t :: rest ∧ e.ShowsAt t ∧ Viable L init ∧
        ∀ rest', x (init ++ t :: rest') = (.error e, rest')

namespace Foresees

variable {α β : Type} {lines : Nat → Prop} {L M : Language Token} {x y : Reading α}
  {f : α → Reading β} {ts : List Token}

theorem mono (h : Foresees lines L x ts) (hLM : ∀ w ∈ L, w ∈ M) : Foresees lines M x ts where
  ok hx := by
    obtain ⟨used, hused, hts, hlocal⟩ := h.ok hx
    exact ⟨used, hLM used hused, hts, hlocal⟩
  error hx := by
    rcases h.error hx with ⟨hrest, hend, hv⟩ | ⟨init, t, hts, ht, hv, hlocal⟩
    · exact .inl ⟨hrest, hend, hv.mono hLM⟩
    · exact .inr ⟨init, t, hts, ht, hv.mono hLM, hlocal⟩

theorem of_pure (v : α) (hL : [] ∈ L) : Foresees lines L (pure v) ts where
  ok hx := by
    cases hx
    exact ⟨[], hL, rfl, fun _ _ => rfl⟩
  error hx := by cases hx

/-- A sequence reads the product. -/
theorem bind [Productive M] (hx : Foresees lines L x ts)
    (hf : ∀ {v rest}, x ts = (.ok v, rest) → Foresees lines M (f v) rest) :
    Foresees lines (L * M) (x >>= f) ts where
  ok h := by
    obtain ⟨v, mid, hv, hw⟩ := Reading.bind_eq_ok_iff.mp h
    obtain ⟨used, hused, hts, hlocal⟩ := hx.ok hv
    obtain ⟨used', hused', hmid, hlocal'⟩ := (hf hv).ok hw
    refine ⟨used ++ used', Language.append_mem_mul hused hused', by simp [hts, hmid], ?_⟩
    intro rest' hsame
    rw [List.append_assoc, Reading.bind_eq_ok_iff]
    -- the first action still looks at a token of the same kind, whether or not `used'` is empty
    exact ⟨v, _, hlocal _ (hmid ▸ hsame.append used'), hlocal' _ hsame⟩
  error h := by
    rcases Reading.bind_eq_error_iff.mp h with hfail | ⟨v, mid, hv, hfail⟩
    · rcases hx.error hfail with ⟨hrest, hend, hviable⟩ | ⟨init, t, hts, ht, hviable, hlocal⟩
      · exact .inl ⟨hrest, hend, hviable.mul_right⟩
      · refine .inr ⟨init, t, hts, ht, hviable.mul_right, fun rest' => ?_⟩
        rw [Reading.bind_eq_error_iff]
        exact .inl (hlocal rest')
    · obtain ⟨used, hused, hts, hlocal⟩ := hx.ok hv
      rcases (hf hv).error hfail with
        ⟨hrest, hend, hviable⟩ | ⟨init, t, hmid, ht, hviable, hlocal'⟩
      · refine .inl ⟨hrest, hend.mono ?_, hts ▸ hviable.append hused⟩
        rintro l (hl | ⟨t, ht, hl⟩)
        · exact .inl hl
        · exact .inr ⟨t, by simp [hts, ht], hl⟩
      · refine .inr ⟨used ++ init, t, by simp [hts, hmid], ht, hviable.append hused, ?_⟩
        intro rest'
        rw [List.append_assoc, Reading.bind_eq_error_iff]
        exact .inr ⟨v, _, hlocal _ (hmid ▸ sameNext_append_cons init t _ _), hlocal' rest'⟩

theorem map {g : α → β} (hx : Foresees lines L x ts) :
    Foresees lines L (x >>= fun v => pure (g v)) ts := by
  have hseq := hx.bind (M := 1) (f := fun v => pure (g v)) fun _ => of_pure _ rfl
  rwa [mul_one] at hseq

/-- An action that does the same as another wherever the next token is of the same kind. -/
theorem congr (hx : Foresees lines L x ts) (h : ∀ us, SameNext ts us → y us = x us) :
    Foresees lines L y ts where
  ok hy := by
    rw [h ts rfl] at hy
    obtain ⟨used, hused, hts, hlocal⟩ := hx.ok hy
    refine ⟨used, hused, hts, fun rest' hsame => ?_⟩
    rw [h _ (hts ▸ hsame.append used)]
    exact hlocal rest' hsame
  error hy := by
    rw [h ts rfl] at hy
    rcases hx.error hy with hend | ⟨init, t, hts, ht, hviable, hlocal⟩
    · exact .inl hend
    · refine .inr ⟨init, t, hts, ht, hviable, fun rest' => ?_⟩
      rw [h _ (hts ▸ sameNext_append_cons init t _ _)]
      exact hlocal rest'

/-- An action that does the same as another after the same first token, which both take. -/
theorem congr_first {t : Token} (hx : Foresees lines L x (t :: ts)) (hL : [] ∉ L)
    (h : ∀ us, y (t :: us) = x (t :: us)) : Foresees lines L y (t :: ts) where
  ok hy := by
    rw [h ts] at hy
    obtain ⟨used, hused, hts, hlocal⟩ := hx.ok hy
    refine ⟨used, hused, hts, fun rest' hsame => ?_⟩
    cases used with
    | nil => exact (hL hused).elim
    | cons u used =>
      cases hts
      rw [List.cons_append, h]
      exact hlocal rest' hsame
  error hy := by
    rw [h ts] at hy
    rcases hx.error hy with hend | ⟨init, u, hts, hu, hviable, hlocal⟩
    · exact .inl hend
    · refine .inr ⟨init, u, hts, hu, hviable, fun rest' => ?_⟩
      cases init with
      | nil =>
        cases hts
        exact (h rest').trans (hlocal rest')
      | cons t' init =>
        cases hts
        exact (h _).trans (hlocal rest')

/-- An action that takes the first token and goes on as another one. -/
theorem take {t : Token} (hx : Foresees (fun l => lines l ∨ l = t.line) M x ts)
    (hM : ∀ w ∈ M, t :: w ∈ L) (h : ∀ us, y (t :: us) = x us) : Foresees lines L y (t :: ts) where
  ok hy := by
    rw [h ts] at hy
    obtain ⟨used, hused, hts, hlocal⟩ := hx.ok hy
    refine ⟨t :: used, hM used hused, by simp [hts], fun rest' hsame => ?_⟩
    rw [List.cons_append, h]
    exact hlocal rest' hsame
  error hy := by
    rw [h ts] at hy
    rcases hx.error hy with ⟨hrest, hend, us, hus⟩ | ⟨init, u, hts, hu, ⟨us, hus⟩, hlocal⟩
    · refine .inl ⟨hrest, hend.mono ?_, us, hM _ hus⟩
      rintro l ((hl | rfl) | ⟨u, hu, hl⟩)
      · exact .inl hl
      · exact .inr ⟨t, List.mem_cons_self, rfl⟩
      · exact .inr ⟨u, List.mem_cons_of_mem _ hu, hl⟩
    · refine .inr ⟨t :: init, u, by simp [hts], hu, ⟨us, hM _ hus⟩, fun rest' => ?_⟩
      rw [List.cons_append, h]
      exact hlocal rest'

/-- An action that takes the first token and blames it. -/
theorem blame {t : Token} {e : SyntaxError} [Productive L] (ht : e.ShowsAt t)
    (h : ∀ us, x (t :: us) = (.error e, us)) : Foresees lines L x (t :: ts) where
  ok hx := by
    rw [h ts] at hx
    cases hx
  error hx := by
    rw [h ts] at hx
    cases hx
    exact .inr ⟨[], t, rfl, ht, Productive.exists_mem, h⟩

/-- An action that cannot do without a token. -/
theorem blame_end {e : SyntaxError} [Productive L] (he : e.ShowsAtEnd lines)
    (h : x [] = (.error e, [])) : Foresees lines L x [] where
  ok hx := by
    rw [h] at hx
    cases hx
  error hx := by
    rw [h] at hx
    cases hx
    exact .inl ⟨rfl, he.mono fun _ => .inl, Productive.exists_mem⟩

/-- A choice made by looking at the next token. -/
theorem ifNext {next : Token.Kind → Option (Nat → Reading α)} {other : Reading α}
    (hnext : ∀ t us z, ts = t :: us → next t.kind = some z →
      ∃ M, (∀ w ∈ M, t :: w ∈ L) ∧ Foresees (fun l => lines l ∨ l = t.line) M (z t.line) us)
    (hother : Foresees lines L other ts) : Foresees lines L (Reading.ifNext next other) ts := by
  cases ts with
  | nil =>
    refine hother.congr fun us hsame => ?_
    cases us with
    | nil => rfl
    | cons u us => cases hsame
  | cons t us =>
    cases hz : next t.kind with
    | some z =>
      obtain ⟨M, hM, hx⟩ := hnext t us z rfl hz
      refine hx.take hM fun us' => ?_
      simp only [Reading.ifNext, hz]
    | none =>
      refine hother.congr fun us' hsame => ?_
      cases us' with
      | nil => cases hsame
      | cons u us' =>
        have hk : t.kind = u.kind := Option.some.inj hsame
        simp only [Reading.ifNext, ← hk, hz]

/-- An action that ends, or goes on if the next token says so. -/
theorem option {v : α} {next : Token.Kind → Option (Nat → Reading α)} {kinds : Token.Kind → Prop}
    (hnext : ∀ t us z, ts = t :: us → next t.kind = some z →
      kinds t.kind ∧ Foresees (fun l => lines l ∨ l = t.line) M (z t.line) us) :
    Foresees lines (1 + oneOf kinds * M) (Reading.ifNext next (pure v)) ts := by
  refine ifNext (fun t us z hts hz => ?_) (of_pure v (.inl rfl))
  obtain ⟨hk, hx⟩ := hnext t us z hts hz
  exact ⟨M, fun w hw => .inr (Language.append_mem_mul (a := [t]) ⟨t, hk, rfl⟩ hw), hx⟩

end Foresees

/-- An action that takes one token, which has to be of the kind wanted. -/
theorem foresees_just {lines : Nat → Prop} {wanted : Token.Kind} {x : Reading Unit}
    {early : SyntaxError} {wrong : Token → SyntaxError} (hnil : x [] = (.error early, []))
    (hearly : early.ShowsAtEnd lines)
    (hcons : ∀ t us, x (t :: us) =
      if t.kind = wanted then (.ok (), us) else (.error (wrong t), us))
    (hwrong : ∀ t, t.kind ≠ wanted → (wrong t).ShowsAt t) (ts : List Token) :
    Foresees lines (just wanted) x ts := by
  cases ts with
  | nil => exact .blame_end hearly hnil
  | cons t us =>
    by_cases hk : t.kind = wanted
    · refine .take (M := 1) (.of_pure () rfl) ?_ fun us => ?_
      · rintro _ rfl
        exact ⟨t, hk, rfl⟩
      · rw [hcons, if_pos hk]
        rfl
    · refine .blame (hwrong t hk) fun us => ?_
      rw [hcons, if_neg hk]

theorem foresees_expect {lines : Nat → Prop} (wanted : Token.Kind) (line : Nat) (ts : List Token) :
    Foresees lines (just wanted) (reading (expect wanted line)) ts := by
  have hnil : reading (expect wanted line) [] = (.error ⟨.unexpectedEnd, line⟩, []) := rfl
  exact foresees_just hnil trivial (reading_expect_cons wanted line) (fun t _ => ⟨rfl, rfl⟩) ts

theorem foresees_expectCloseParen {lines : Nat → Prop} {line : Nat} (hline : lines line)
    (ts : List Token) :
    Foresees lines (just (.symbol .rightParen)) (reading (expectCloseParen line)) ts := by
  have hnil : reading (expectCloseParen line) [] = (.error ⟨.unclosedParen, line⟩, []) := rfl
  exact foresees_just hnil hline (reading_expectCloseParen_cons line) (fun t hk => ⟨rfl, hk⟩) ts

end Imp32
