import MiniJava.Proofs.Parsing.Names

/-!
# Texts of tokens

Written one after the other with single blanks between them, tokens are read back as they are: a blank
ends every token, and it cannot go on in any of them.
-/

namespace MiniJava

open List

variable {cs rest : List Char} {c : Char}

def Token.chars : Token → List Char
  | .keyword k => k.text.toList
  | .symbol s => s.chars
  | .ident name => name.toList
  | .number value => Nat.toDigits 10 value.toInt.toNat

namespace Lexer

/-! ## One token -/

def AtBlank (rest : List Char) : Prop := rest = [] ∨ ∃ cs, rest = ' ' :: cs

def Spells (cs : List Char) (t : Token) : Prop :=
  ∀ rest, AtBlank rest → munch? (cs ++ rest) = some (some t, cs.length)

theorem takeWhile_append_of_atBlank {p : Char → Bool} (hcs : ∀ c ∈ cs, p c = true)
    (hp : p ' ' = false) (hrest : AtBlank rest) :
    (cs ++ rest).takeWhile p = cs := by
  rw [takeWhile_append_of_pos hcs]
  rcases hrest with rfl | ⟨rest, rfl⟩
  · simp
  · simp [hp]

theorem spells_symbol (s : Symbol) : Spells s.chars (.symbol s) := by
  rintro rest (rfl | ⟨rest, rfl⟩) <;> cases s <;> rfl

theorem spells_keyword (k : Keyword) : Spells k.text.toList (.keyword k) := by
  rintro rest (rfl | ⟨rest, rfl⟩) <;> cases k <;> rfl

theorem munch?_cons_of_inWord (hc : inWord c = true) (cs : List Char) : munch? (c :: cs) =
      if startsWord c then some (some (word (c :: cs)).1, (word (c :: cs)).2)
      else if c.isDigit then (number? (c :: cs)).map fun (token, n) => (some token, n)
      else (symbol? (c :: cs)).map fun (token, n) => (some token, n) := by
  have hgap : isGap c = false := by
    by_contra h
    simp only [isGap, Bool.not_eq_false, Bool.or_eq_true, beq_iff_eq] at h
    rcases h with (((rfl | rfl) | rfl) | rfl) | rfl <;> exact absurd hc (by decide)
  have hslash : c ≠ '/' := by
    rintro rfl
    exact absurd hc (by decide)
  unfold munch?
  split
  · next heq => cases heq
  · next heq => exact absurd (cons.inj heq).1 hslash
  · next heq => exact absurd (cons.inj heq).1 hslash
  · next heq =>
    obtain ⟨rfl, rfl⟩ := cons.inj heq
    rw [hgap]
    rfl

theorem spells_ident {name : String} (h : IsIdentifier name) :
    Spells name.toList (.ident name) := by
  intro rest hrest
  obtain ⟨c, cs, hname, hc⟩ := h.starts
  have htake := takeWhile_append_of_atBlank h.isWord (by decide) hrest
  have hprint : printlnTail.isPrefixOf rest = false := by
    rcases hrest with rfl | ⟨rest, rfl⟩ <;> rfl
  have hword : word (name.toList ++ rest) = (.ident name, name.toList.length) := by
    unfold word
    rw [htake]
    simp only [drop_left, hprint, String.ofList_toList, h.ofWord?, Bool.false_eq_true, and_false,
      if_false]
  rw [hname] at hword ⊢
  rw [cons_append, munch?_cons_of_inWord (inWord_of_startsWord hc), if_pos hc,
    ← cons_append, hword]

theorem startsWord_of_isDigit (hc : c.isDigit = true) : startsWord c = false := by
  have hne : c ≠ '_' := by
    rintro rfl
    exact absurd hc (by decide)
  have hdigit : (c.val ≥ 48 && c.val ≤ 57) = true := hc
  change ((decide (c.val ≥ 65 ∧ c.val ≤ 90) || (c.val ≥ 97 && c.val ≤ 122)) || c == '_') = false
  grind

theorem spells_digits {digits : List Char} (hne : digits ≠ [])
    (hdigits : ∀ c ∈ digits, c.isDigit = true) (hle : decimal digits ≤ maxNumber) :
    Spells digits (.number (.ofNat (decimal digits))) := by
  intro rest hrest
  have hnumber : number? (digits ++ rest) =
      some (.number (.ofNat (decimal digits)), digits.length) := by
    unfold number?
    rw [takeWhile_append_of_atBlank hdigits (by decide) hrest]
    simp only [if_pos hle]
  obtain ⟨c, cs, rfl⟩ := exists_cons_of_ne_nil hne
  have hc := hdigits c mem_cons_self
  have hin : inWord c = true := by simp [inWord, Char.isAlphanum, hc]
  rw [cons_append, munch?_cons_of_inWord hin, startsWord_of_isDigit hc,
    if_neg Bool.false_ne_true, if_pos hc, ← cons_append, hnumber]
  rfl

theorem spells_number {value : Int32} (h : 0 ≤ value.toInt) :
    Spells (Nat.toDigits 10 value.toInt.toNat) (.number value) := by
  have hvalue : decimal (Nat.toDigits 10 value.toInt.toNat) = value.toInt.toNat :=
    Nat.ofDigitChars_toDigits (by decide) (by decide)
  have hle : value.toInt.toNat ≤ maxNumber := by
    have := value.toInt_lt
    rw [maxNumber]
    omega
  have hspells := spells_digits (Nat.toDigits_ne_nil (b := 10))
    (fun c hc => Nat.isDigit_of_mem_toDigits (by decide) (by decide) hc) (hvalue.symm ▸ hle)
  rwa [hvalue, ← Int32.ofInt_eq_ofNat, Int.toNat_of_nonneg h, Int32.ofInt_toInt] at hspells

/-- **The text of a token is read as this token.** -/
theorem spells_chars {t : Token} (h : t.Lexical) : Spells t.chars t := by
  cases t with
  | keyword k => exact spells_keyword k
  | symbol s => exact spells_symbol s
  | ident name => exact spells_ident h
  | number value => exact spells_number h

/-! ## Many tokens -/

theorem Spells.exists_cons {t : Token} (h : Spells cs t) :
    ∃ c cs', cs = c :: cs' ∧ isGap c = false := by
  have hm := h [] (Or.inl rfl)
  rw [append_nil] at hm
  cases cs with
  | nil => cases hm
  | cons c cs =>
    refine ⟨c, cs, rfl, ?_⟩
    by_contra hgap
    rw [Bool.not_eq_false] at hgap
    unfold munch? at hm
    split at hm
    · cases hm
    · cases hm
    · obtain ⟨_, _, heq⟩ := Option.map_eq_some_iff.1 hm
      cases heq
    · next heq =>
      obtain ⟨rfl, rfl⟩ := cons.inj heq
      rw [if_pos hgap] at hm
      cases hm

theorem pieces_of_scan {p : Piece} (h : scan cs = some (p, rest)) :
    pieces cs = (pieces rest).map (p :: ·) := by
  cases cs with
  | nil => cases h
  | cons c cs =>
    rw [pieces]
    split
    · next hnone => rw [h] at hnone; cases hnone
    · next hsome =>
      rw [h] at hsome
      cases hsome
      rfl

theorem Spells.pieces_append {t : Token} (h : Spells cs t) (hrest : AtBlank rest) :
    pieces (cs ++ rest) = (pieces rest).map (⟨some t, cs⟩ :: ·) := by
  refine pieces_of_scan ?_
  rw [scan, h rest hrest]
  simp

theorem pieces_blank (h : isGap c = false) :
    pieces (' ' :: c :: cs) = (pieces (c :: cs)).map (⟨none, [' ']⟩ :: ·) := by
  refine pieces_of_scan ?_
  have hm : munch? (' ' :: c :: cs) = some (none, 1 + ((c :: cs).takeWhile isGap).length) := rfl
  rw [scan, hm, takeWhile_cons_of_neg (by simp [h])]
  rfl

/-- **Tokens with blanks between them are read back.** -/
theorem pieces_intercalate {texts : List (List Char)} {ts : List Token}
    (h : List.Forall₂ Spells texts ts) :
    ∃ ps, pieces ([' '].intercalate texts) = .ok ps ∧ ps.filterMap (·.token?) = ts := by
  induction h with
  | nil => exact ⟨[], by simp [pieces], rfl⟩
  | @cons cs t texts ts hspells hrest ih =>
    obtain ⟨ps, hps, hts⟩ := ih
    cases hrest with
    | nil =>
      refine ⟨[⟨some t, cs⟩], ?_, rfl⟩
      have hcs := hspells.pieces_append (Or.inl rfl)
      rw [append_nil, pieces] at hcs
      rw [intercalate_singleton, hcs]
      rfl
    | @cons cs' t' texts ts hspells' hrest =>
      obtain ⟨c, cs'', rfl, hgap⟩ := hspells'.exists_cons
      obtain ⟨more, hmore⟩ : ∃ more, [' '].intercalate ((c :: cs'') :: texts) = c :: more := by
        cases texts <;> simp [intercalate]
      refine ⟨⟨some t, cs⟩ :: ⟨none, [' ']⟩ :: ps, ?_, by simpa using hts⟩
      rw [intercalate_cons_cons, append_assoc, singleton_append, hmore,
        hspells.pieces_append (Or.inr ⟨_, rfl⟩), pieces_blank hgap, ← hmore, hps]
      rfl

theorem map_token_spans (start : Nat) (ps : List Piece) :
    (spans start ps).map (·.token) = ps.filterMap (·.token?) := by
  induction ps generalizing start with
  | nil => rfl
  | cons p ps ih =>
    rw [spans]
    split
    · next t ht => rw [map_cons, ih, filterMap_cons_some ht]
    · next ht => rw [ih, filterMap_cons_none ht]

end Lexer

/-- **Tokens with blanks between them are the tokens of the text.** -/
theorem tokens_of_tokenize_intercalate {ts : List Token} (h : ∀ t ∈ ts, t.Lexical) :
    ∃ tokens, tokenize (.ofList ([' '].intercalate (ts.map Token.chars))) = .ok tokens ∧
      tokens.map (·.token) = ts := by
  have hspells : List.Forall₂ Lexer.Spells (ts.map Token.chars) ts :=
    forall₂_map_left_iff.2 (forall₂_same.2 fun t ht => Lexer.spells_chars (h t ht))
  obtain ⟨ps, hps, hts⟩ := Lexer.pieces_intercalate hspells
  refine ⟨Lexer.spans 0 ps, ?_, (Lexer.map_token_spans 0 ps).trans hts⟩
  rw [tokenize, String.toList_ofList, hps]

end MiniJava
