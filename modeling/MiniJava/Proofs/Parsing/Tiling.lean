import Mathlib
import MiniJava.Proofs.Parsing.Spelling

/-!
# Tokens tile the source

The lexer decides by the next few characters what it reads. The language is described by rules instead,
of which the one that matches most of the text counts, and keywords before identifiers. A comment starts
by a rule and goes on to the first `*/`; a number that is too large is one by its rule, but no token.

Read by longest match, a text is a row of tokens with gaps between them, to its end or to the place where
nothing can be read. A token that was read is read again wherever a blank follows it.
-/

namespace MiniJava

open List

namespace Lexer

variable {c : Char} {cs w w' rest : List Char}

/-! ## Rules -/

/-- What a stretch of text can be. -/
inductive Rule where
  | blank
  | lineComment
  /-- The start of a comment, which goes on to the first `*/`. -/
  | commentStart
  | keyword (k : Keyword)
  | symbol (s : Symbol)
  | ident
  | number

theorem text_of_ofWord? {word : String} {k : Keyword} (h : Keyword.ofWord? word = some k) :
    k.text = word := by
  have htext := find?_some h
  exact eq_of_beq htext

namespace Rule

/-- The texts that a rule matches. -/
def Matches : Rule → List Char → Prop
  | blank, w => w ≠ [] ∧ ∀ c ∈ w, isGap c = true
  | lineComment, w => ∃ cs, w = '/' :: '/' :: cs ∧ ∀ c ∈ cs, c ≠ '\n'
  | commentStart, w => w = ['/', '*']
  | keyword k, w => w = k.text.toList
  | symbol s, w => w = s.chars
  | ident, w => ∃ c cs, w = c :: cs ∧ startsWord c = true ∧ ∀ d ∈ cs, inWord d = true
  | number, w => w ≠ [] ∧ ∀ c ∈ w, c.isDigit = true

/-- The token that a rule gives for a text. -/
def token? (w : List Char) : Rule → Option Token
  | keyword k => some (.keyword k)
  | symbol s => some (.symbol s)
  | ident => some (.ident (.ofList w))
  | number => if decimal w ≤ maxNumber then some (.number (.ofNat (decimal w))) else none
  | blank | lineComment | commentStart => none

/-- The longest match. Whatever else matches is shorter, unless an identifier is a keyword. -/
structure Wins (r : Rule) (w rest : List Char) : Prop where
  fits : r.Matches w
  best : ∀ r' w', Matches r' w' → w' <+: w ++ rest →
    w'.length < w.length ∨ w' = w ∧ (r' = r ∨ r' = .ident ∧ ∃ k, r = .keyword k)

/-- The characters that a rule can start with. -/
def startsWith : Rule → Char → Bool
  | blank, c => isGap c
  | ident, c | keyword _, c => startsWord c
  | number, c => c.isDigit
  | lineComment, c | commentStart, c | symbol _, c => !isGap c && !startsWord c && !c.isDigit

variable {r : Rule}

theorem Matches.starts (h : r.Matches w) : ∃ c w', w = c :: w' ∧ r.startsWith c = true := by
  cases r with
  | blank | number =>
    obtain ⟨c, w', rfl⟩ := exists_cons_of_ne_nil h.1
    exact ⟨c, w', rfl, h.2 c mem_cons_self⟩
  | lineComment =>
    obtain ⟨cs, rfl, _⟩ := h
    exact ⟨_, _, rfl, by decide⟩
  | commentStart => exact ⟨_, _, h, by decide⟩
  | keyword k =>
    subst h
    cases k <;> exact ⟨_, _, rfl, by decide⟩
  | symbol s =>
    subst h
    cases s <;> exact ⟨_, _, rfl, by decide⟩
  | ident =>
    obtain ⟨c, cs, rfl, hc, _⟩ := h
    exact ⟨c, cs, rfl, hc⟩

/-- A rule that matches the start of a text can start with its first character. -/
theorem Matches.startsWith (h : r.Matches w) (hw : w <+: c :: cs) : r.startsWith c = true := by
  obtain ⟨d, w', rfl, hd⟩ := h.starts
  exact (cons_prefix_cons.1 hw).1 ▸ hd

theorem shorter_or_eq (h : w' <+: w ++ rest) (hle : w'.length ≤ w.length) :
    w'.length < w.length ∨ w' = w :=
  (Nat.lt_or_eq_of_le hle).imp_right
    (prefix_of_prefix_length_le h (prefix_append w rest) hle).eq_of_length

theorem length_le_takeWhile {p : Char → Bool} (h : w <+: cs) (hw : ∀ c ∈ w, p c = true) :
    w.length ≤ (cs.takeWhile p).length := by
  obtain ⟨t, rfl⟩ := h
  rw [takeWhile_append_of_pos hw, length_append]
  exact Nat.le_add_right _ _

/-! ## Longest matches -/

/-- A rule for runs of characters matches as many as there are. -/
theorem wins_run {p : Char → Bool} (hr : ∀ w, r.Matches w ↔ w ≠ [] ∧ ∀ c ∈ w, p c = true)
    (hc : p c = true) (honly : ∀ r', startsWith r' c = true → r' = r) :
    r.Wins ((c :: cs).takeWhile p) ((c :: cs).dropWhile p) := by
  refine ⟨(hr _).2 ⟨by simp [hc], all_eq_true.1 all_takeWhile⟩, fun r' w' hw' hpre => ?_⟩
  have hle := hpre
  rw [takeWhile_append_dropWhile] at hle
  obtain rfl := honly r' (hw'.startsWith hle)
  exact (shorter_or_eq hpre (length_le_takeWhile hle ((hr w').1 hw').2)).imp_right
    fun heq => ⟨heq, Or.inl rfl⟩

theorem wins_blank (hc : isGap c = true) :
    blank.Wins ((c :: cs).takeWhile isGap) ((c :: cs).dropWhile isGap) := by
  refine wins_run (fun _ => Iff.rfl) hc fun r' h => ?_
  have hother : startsWord c = false ∧ c.isDigit = false := by
    simp only [isGap, Bool.or_eq_true, beq_iff_eq] at hc
    rcases hc with (((rfl | rfl) | rfl) | rfl) | rfl <;> decide
  cases r' <;> simp [Rule.startsWith, hc, hother] at h ⊢

theorem wins_number (hgap : isGap c = false) (hword : startsWord c = false) (hc : c.isDigit = true) :
    number.Wins ((c :: cs).takeWhile Char.isDigit) ((c :: cs).dropWhile Char.isDigit) := by
  refine wins_run (fun _ => Iff.rfl) hc fun r' h => ?_
  cases r' <;> simp [Rule.startsWith, hgap, hword, hc] at h ⊢

theorem wins_lineComment (cs : List Char) :
    lineComment.Wins ('/' :: '/' :: cs.takeWhile (· ≠ '\n')) (cs.dropWhile (· ≠ '\n')) := by
  refine ⟨⟨_, rfl, fun d hd => of_decide_eq_true (all_eq_true.1 all_takeWhile d hd)⟩,
    fun r' w' hw' hpre => ?_⟩
  have hstarts := hw'.startsWith hpre
  cases r' with
  | lineComment =>
    obtain ⟨cs', rfl, hcs'⟩ := hw'
    refine (shorter_or_eq hpre ?_).imp_right fun heq => ⟨heq, Or.inl rfl⟩
    have hpre : cs' <+: cs := by
      simpa [cons_prefix_cons, -ne_eq] using hpre
    simpa using length_le_takeWhile hpre fun c hc => decide_eq_true (hcs' c hc)
  | commentStart =>
    cases hw'
    simp [cons_prefix_cons] at hpre
  | symbol s =>
    obtain rfl : w' = s.chars := hw'
    refine Or.inl ?_
    cases s <;> simp [Symbol.chars, cons_prefix_cons] at hpre ⊢
  | _ =>
    rw [Rule.startsWith] at hstarts
    exact absurd hstarts (by decide)

theorem wins_commentStart (cs : List Char) : commentStart.Wins ['/', '*'] cs := by
  refine ⟨rfl, fun r' w' hw' hpre => ?_⟩
  have hstarts := hw'.startsWith hpre
  cases r' with
  | lineComment =>
    obtain ⟨cs', rfl, _⟩ := hw'
    simp [cons_prefix_cons] at hpre
  | commentStart => exact Or.inr ⟨hw', Or.inl rfl⟩
  | symbol s =>
    obtain rfl : w' = s.chars := hw'
    refine Or.inl ?_
    cases s <;> simp [Symbol.chars, cons_prefix_cons] at hpre ⊢
  | _ =>
    rw [Rule.startsWith] at hstarts
    exact absurd hstarts (by decide)

/-- Of the symbols that a text starts with, the one that is found first is the longest. -/
theorem wins_symbol {s : Symbol} (hgap : isGap c = false) (hword : startsWord c = false)
    (hdigit : c.isDigit = false) (hslash : ∀ cs', c :: cs ≠ '/' :: '/' :: cs')
    (hstar : ∀ cs', c :: cs ≠ '/' :: '*' :: cs')
    (h : Symbol.all.find? (fun s => s.chars.isPrefixOf (c :: cs)) = some s) :
    ∃ rest, c :: cs = s.chars ++ rest ∧ (symbol s).Wins s.chars rest := by
  obtain ⟨hs, before, after, hall, hbefore⟩ := find?_eq_some_iff_append.1 h
  obtain ⟨rest, hrest⟩ := isPrefixOf_iff_prefix.1 hs
  refine ⟨rest, hrest.symm, rfl, fun r' w' hw' hpre => ?_⟩
  rw [hrest] at hpre
  have hstarts := hw'.startsWith hpre
  cases r' with
  | symbol s' =>
    obtain rfl : w' = s'.chars := hw'
    have hsorted : Symbol.all.Pairwise fun a b => b.chars.length ≤ a.chars.length := by decide
    have hle : s'.chars.length ≤ s.chars.length := by
      rw [hall, pairwise_append] at hsorted
      have hmem := s'.mem_all
      rw [hall, mem_append, mem_cons] at hmem
      rcases hmem with hmem | rfl | hmem
      · have hnot := hbefore s' hmem
        rw [ isPrefixOf_iff_prefix.2 hpre] at hnot
        cases hnot
      · exact Nat.le_refl _
      · exact rel_of_pairwise_cons hsorted.2.1 hmem
    refine (shorter_or_eq (hrest ▸ hpre) hle).imp_right fun heq => ⟨heq, Or.inl ?_⟩
    have hinj : ∀ a ∈ Symbol.all, ∀ b ∈ Symbol.all, a.chars = b.chars → a = b := by decide
    rw [hinj s' s'.mem_all s s.mem_all heq]
  | lineComment =>
    obtain ⟨cs', rfl, _⟩ := hw'
    obtain ⟨t, ht⟩ := hpre
    exact absurd ht.symm (hslash _)
  | commentStart =>
    obtain rfl : w' = ['/', '*'] := hw'
    obtain ⟨t, ht⟩ := hpre
    exact absurd ht.symm (hstar _)
  | _ => simp [Rule.startsWith, hgap, hword, hdigit] at hstarts

theorem keyword_cases (k : Keyword) : k = .printlnKw ∨
    Keyword.ofWord? k.text = some k ∧ ∀ c ∈ k.text.toList, inWord c = true := by
  cases k <;> first | exact Or.inl rfl | exact Or.inr ⟨by decide, all_eq_true.1 (by decide)⟩

/-- A text that starts like a word is read up to the end of the word, or to the end of the printing
keyword. -/
theorem wins_word (hgap : isGap c = false) (hc : startsWord c = true) :
    ∃ r w rest, (word (c :: cs)).2 = w.length ∧ c :: cs = w ++ rest ∧ Wins r w rest ∧
      r.token? w = some (word (c :: cs)).1 := by
  have hdigit : c.isDigit = false := by
    by_contra h
    rw [startsWord_of_isDigit (Bool.not_eq_false _ ▸ h)] at hc
    cases hc
  obtain ⟨name, hname⟩ : ∃ name, name = (c :: cs).takeWhile inWord := ⟨_, rfl⟩
  have happ : name ++ (c :: cs).drop name.length = c :: cs :=
    prefix_iff_eq_append.1 (hname ▸ takeWhile_prefix _)
  have hprint : Keyword.printlnKw.text.toList <+: c :: cs → name = ['S', 'y', 's', 't', 'e', 'm'] ∧
      printlnTail.isPrefixOf ((c :: cs).drop name.length) = true := by
    rintro ⟨t, ht⟩
    rw [hname, ← ht]
    exact ⟨rfl, rfl⟩
  -- Only identifiers and keywords match, and apart from printing no more than the word.
  have hbest : ∀ r' w', Matches r' w' → w' <+: c :: cs → r' ≠ .keyword .printlnKw →
      w'.length < name.length ∨ w' = name ∧
        (r' = .ident ∨ ∃ k, r' = .keyword k ∧ Keyword.ofWord? (.ofList name) = some k) := by
    intro r' w' hw' hpre hne
    have hlt : (∀ c ∈ w', inWord c = true) → w'.length < name.length ∨ w' = name := fun hin =>
      shorter_or_eq (happ.symm ▸ hpre) (hname ▸ length_le_takeWhile hpre hin)
    have hstarts := hw'.startsWith hpre
    cases r' with
    | ident =>
      obtain ⟨d, ds, rfl, hd, hds⟩ := hw'
      exact (hlt (forall_mem_cons.2 ⟨inWord_of_startsWord hd, hds⟩)).imp_right
        fun heq => ⟨heq, Or.inl rfl⟩
    | keyword k =>
      obtain rfl : w' = k.text.toList := hw'
      rcases keyword_cases k with rfl | ⟨hk, hin⟩
      · exact absurd rfl hne
      · refine (hlt hin).imp_right fun heq => ⟨heq, Or.inr ⟨k, rfl, ?_⟩⟩
        rw [← heq, String.ofList_toList, hk]
    | _ => simp [Rule.startsWith, hgap, hc, hdigit] at hstarts
  unfold word
  dsimp only
  rw [← hname]
  split
  · next h =>
    obtain ⟨rest, hrest⟩ := isPrefixOf_iff_prefix.1 h.2
    have htext : c :: cs = Keyword.printlnKw.text.toList ++ rest := by
      rw [← happ, ← hrest, h.1]
      rfl
    refine ⟨.keyword .printlnKw, _, rest, by rw [h.1]; rfl, htext, ⟨rfl, fun r' w' hw' hpre => ?_⟩, rfl⟩
    by_cases hr : r' = .keyword .printlnKw
    · exact Or.inr ⟨by rw [hr] at hw'; exact hw', Or.inl hr⟩
    · have hlen : name.length < Keyword.printlnKw.text.toList.length := by
        rw [h.1]
        decide
      refine Or.inl (Nat.lt_of_le_of_lt ?_ hlen)
      rcases hbest r' w' hw' (htext ▸ hpre) hr with hlt | ⟨rfl, _⟩
      · exact Nat.le_of_lt hlt
      · exact Nat.le_refl _
  · next h =>
    have hother : ∀ r' w', Matches r' w' → w' <+: c :: cs → w'.length < name.length ∨ w' = name ∧
        (r' = .ident ∨ ∃ k, r' = .keyword k ∧ Keyword.ofWord? (.ofList name) = some k) := by
      intro r' w' hw' hpre
      refine hbest r' w' hw' hpre fun hr => h (hprint ?_)
      obtain rfl := hr
      obtain rfl : w' = _ := hw'
      exact hpre
    split
    · next k hk =>
      have htext : name = k.text.toList := by
        rw [text_of_ofWord? hk, String.toList_ofList]
      refine ⟨.keyword k, name, _, rfl, happ.symm, ⟨htext, fun r' w' hw' hpre => ?_⟩, rfl⟩
      rcases hother r' w' hw' (happ ▸ hpre) with hlt | ⟨heq, hr | ⟨k', rfl, hk'⟩⟩
      · exact Or.inl hlt
      · exact Or.inr ⟨heq, Or.inr ⟨hr, k, rfl⟩⟩
      · rw [hk] at hk'
        exact Or.inr ⟨heq, Or.inl (congrArg _ (Option.some.inj hk').symm)⟩
    · next hk =>
      refine ⟨.ident, name, _, rfl, happ.symm, ⟨⟨c, cs.takeWhile inWord, ?_, hc,
        all_eq_true.1 all_takeWhile⟩, fun r' w' hw' hpre => ?_⟩, rfl⟩
      · rw [hname, takeWhile_cons_of_pos (inWord_of_startsWord hc)]
      · rcases hother r' w' hw' (happ ▸ hpre) with hlt | ⟨heq, hr | ⟨k', rfl, hk'⟩⟩
        · exact Or.inl hlt
        · exact Or.inr ⟨heq, Or.inl hr⟩
        · rw [hk] at hk'
          cases hk'

end Rule

/-! ## Pieces -/

/-- A text that ends with its first `*/`. -/
def Closes (body : List Char) : Prop := ∃ cs, body = cs ++ ['*', '/'] ∧ ¬ ['*', '/'] <:+: cs ++ ['*']

/-- What is cut off before the rest of a text. -/
inductive Cuts : Piece → List Char → Prop
  | token {r : Rule} {w rest : List Char} {t : Token} (h : r.Wins w rest) (ht : r.token? w = some t) :
    Cuts ⟨some t, w⟩ rest
  | gap {r : Rule} {w rest : List Char} (h : r.Wins w rest) (hr : r = .blank ∨ r = .lineComment) :
    Cuts ⟨none, w⟩ rest
  | comment {body rest : List Char} (h : Rule.commentStart.Wins ['/', '*'] (body ++ rest))
    (hbody : Closes body) : Cuts ⟨none, '/' :: '*' :: body⟩ rest

/-- A text that nothing can be cut off from. -/
inductive Stuck : List Char → Prop
  | noRule {cs : List Char} (h : ∀ r w, Rule.Matches r w → ¬ w <+: cs) : Stuck cs
  | unclosed {body : List Char} (h : ¬ ['*', '/'] <:+: body) : Stuck ('/' :: '*' :: body)
  | tooLarge {digits rest : List Char} (h : Rule.number.Wins digits rest)
    (hlt : maxNumber < decimal digits) : Stuck (digits ++ rest)

/-- A row of tokens with gaps between them, from byte `start` to the end of the text or to the rest
of it, each with the text that it was read from. -/
inductive Tiles (rest : List Char) : Nat → List Char → List (Spanned × List Char) → Prop
  | nil {start : Nat} : Tiles rest start rest []
  | gap {start : Nat} {w cs : List Char} {words : List (Spanned × List Char)} (h : Cuts ⟨none, w⟩ cs)
    (htail : Tiles rest (start + Text.byteLength w) cs words) : Tiles rest start (w ++ cs) words
  | token {start : Nat} {t : Token} {w cs : List Char} {words : List (Spanned × List Char)}
    (h : Cuts ⟨some t, w⟩ cs) (htail : Tiles rest (start + Text.byteLength w) cs words) :
    Tiles rest start (w ++ cs) ((⟨t, start, start + Text.byteLength w⟩, w) :: words)

theorem commentEnd?_cases (cs : List Char) : commentEnd? cs = none ∧ ¬ ['*', '/'] <:+: cs ∨
    ∃ body rest, commentEnd? cs = some body.length ∧ cs = body ++ rest ∧ Closes body := by
  fun_induction commentEnd? cs with
  | case1 cs => exact Or.inr ⟨['*', '/'], cs, rfl, rfl, [], rfl, by decide⟩
  | case2 c cs hne ih =>
    have hstart : ¬ ['*', '/'] <+: c :: cs := by
      rintro ⟨t, ht⟩
      obtain ⟨rfl, rfl⟩ := cons.inj ht
      exact hne t rfl rfl
    rcases ih with ⟨hnone, hcs⟩ | ⟨body, rest, hsome, rfl, xs, rfl, hxs⟩
    · exact Or.inl ⟨by rw [hnone]; rfl, fun h => (infix_cons_iff.1 h).elim hstart hcs⟩
    · refine Or.inr ⟨c :: (xs ++ ['*', '/']), rest, by rw [hsome]; rfl, rfl, c :: xs, rfl, fun h => ?_⟩
      refine (infix_cons_iff.1 h).elim (fun h => hstart (h.trans ⟨'/' :: rest, ?_⟩)) hxs
      simp
  | case3 => exact Or.inl ⟨rfl, by simp⟩

/-- **What a text starts with, by longest match.** -/
theorem munch?_cases (cs : List Char) : munch? cs = none ∧ Stuck cs ∨
    ∃ token? w rest, munch? cs = some (token?, w.length) ∧ cs = w ++ rest ∧ Cuts ⟨token?, w⟩ rest := by
  unfold munch?
  split
  · refine Or.inl ⟨rfl, .noRule fun r w hw hpre => ?_⟩
    obtain ⟨c, w', rfl, _⟩ := hw.starts
    simp at hpre
  · next cs =>
    refine Or.inr ⟨none, _, _, ?_, ?_, .gap (Rule.wins_lineComment cs) (Or.inr rfl)⟩
    · simp
      omega
    · rw [cons_append, cons_append, takeWhile_append_dropWhile]
  · next cs =>
    rcases commentEnd?_cases cs with ⟨hnone, hcs⟩ | ⟨body, rest, hsome, rfl, hbody⟩
    · exact Or.inl ⟨by rw [hnone]; rfl, .unclosed hcs⟩
    · refine Or.inr ⟨none, '/' :: '*' :: body, rest, ?_, rfl, .comment (Rule.wins_commentStart _) hbody⟩
      rw [hsome]
      simp
      omega
  · next c cs hslash hstar =>
    split
    · next hgap =>
      refine Or.inr ⟨none, _, _, ?_, takeWhile_append_dropWhile.symm,
        .gap (Rule.wins_blank hgap) (Or.inl rfl)⟩
      rw [takeWhile_cons_of_pos hgap, length_cons, Nat.add_comm]
    rename_i hgap
    rw [Bool.not_eq_true] at hgap
    split
    · next hword =>
      obtain ⟨r, w, rest, hn, hcs : c :: cs = _, hwins, ht⟩ := Rule.wins_word hgap hword
      exact Or.inr ⟨_, w, rest, by rw [← hn], hcs, .token hwins ht⟩
    rename_i hword
    rw [Bool.not_eq_true] at hword
    split
    · next hdigit =>
      have hwins : Rule.number.Wins ((c :: cs).takeWhile Char.isDigit) _ :=
        Rule.wins_number hgap hword hdigit
      by_cases hle : decimal ((c :: cs).takeWhile Char.isDigit) ≤ maxNumber
      · refine Or.inr ⟨_, _, _, ?_, takeWhile_append_dropWhile.symm, .token hwins (if_pos hle)⟩
        rw [number?, if_pos hle]
        rfl
      · refine Or.inl ⟨by rw [number?, if_neg hle]; rfl, ?_⟩
        rw [← takeWhile_append_dropWhile (p := Char.isDigit) (l := c :: cs)]
        exact .tooLarge hwins (Nat.lt_of_not_le hle)
    rename_i hdigit
    rw [Bool.not_eq_true] at hdigit
    have hslash : ∀ cs', c :: cs ≠ '/' :: '/' :: cs' := fun cs' h =>
      hslash cs' (cons.inj h).1 (cons.inj h).2
    have hstar : ∀ cs', c :: cs ≠ '/' :: '*' :: cs' := fun cs' h =>
      hstar cs' (cons.inj h).1 (cons.inj h).2
    rw [symbol?]
    cases hs : Symbol.all.find? fun s => s.chars.isPrefixOf (c :: cs) with
    | some s =>
      obtain ⟨rest, hcs, hwins⟩ := Rule.wins_symbol hgap hword hdigit hslash hstar hs
      exact Or.inr ⟨_, s.chars, rest, rfl, hcs, .token hwins rfl⟩
    | none =>
      refine Or.inl ⟨rfl, .noRule fun r w hw hpre => ?_⟩
      have hstarts := hw.startsWith hpre
      obtain ⟨t, ht⟩ := hpre
      cases r with
      | symbol s =>
        obtain rfl : w = s.chars := hw
        refine absurd ( isPrefixOf_iff_prefix.2 ⟨t, ht⟩) ?_
        simpa using find?_eq_none.1 hs s s.mem_all
      | lineComment =>
        obtain ⟨cs', rfl, _⟩ := hw
        exact hslash _ ht.symm
      | commentStart =>
        obtain rfl : w = ['/', '*'] := hw
        exact hstar _ ht.symm
      | _ => simp [Rule.startsWith, hgap, hword, hdigit] at hstarts

/-! ## Tilings -/

theorem Cuts.ne_nil {p : Piece} (h : Cuts p rest) : p.text ≠ [] := by
  cases h with
  | token h _ | gap h _ =>
    obtain ⟨c, w, hw, _⟩ := h.fits.starts
    rw [hw]
    exact cons_ne_nil _ _
  | comment => exact cons_ne_nil _ _

/-- A token is read again from its text. -/
theorem Cuts.spells {t : Token} (h : Cuts ⟨some t, w⟩ rest) : Spells w t := by
  cases h with
  | @token r _ _ _ h ht =>
    obtain ⟨hfits, hbest⟩ := h
    cases r with
    | keyword k =>
      cases ht
      exact hfits ▸ spells_keyword k
    | symbol s =>
      cases ht
      exact hfits ▸ spells_symbol s
    | ident =>
      cases ht
      obtain ⟨c, cs, hw, hc, hcs⟩ := hfits
      have hident : IsIdentifier (.ofList w) := by
        refine ⟨?_, ⟨c, cs, by rw [String.toList_ofList, hw], hc⟩, ?_⟩
        · rw [IsWord, String.toList_ofList, hw]
          exact forall_mem_cons.2 ⟨inWord_of_startsWord hc, hcs⟩
        · cases hk : Keyword.ofWord? (.ofList w) with
          | none => rfl
          | some k =>
            have htext : w = k.text.toList := by
              rw [text_of_ofWord? hk, String.toList_ofList]
            rcases hbest (.keyword k) w htext (prefix_append _ _) with hlt | ⟨_, hr | ⟨hr, _⟩⟩
            · exact absurd hlt (Nat.lt_irrefl _)
            · cases hr
            · cases hr
      have hspells := spells_ident hident
      rwa [String.toList_ofList] at hspells
    | number =>
      rw [Rule.token?] at ht
      split at ht
      · next hle =>
        cases ht
        exact spells_digits hfits.1 hfits.2 hle
      · cases ht
    | _ => cases ht

theorem Tiles.spells {start : Nat} {words : List (Spanned × List Char)}
    (h : Tiles rest start cs words) : ∀ x ∈ words, Spells x.2 x.1.token := by
  induction h with
  | nil => exact forall_mem_nil _
  | gap _ _ ih => exact ih
  | token h _ ih => exact forall_mem_cons.2 ⟨h.spells, ih⟩

/-- The tokens of a tiling cover bytes one after the other. -/
theorem Tiles.ordered {start : Nat} {words : List (Spanned × List Char)}
    (h : Tiles rest start cs words) : (∀ x ∈ words, start ≤ x.1.start ∧ x.1.start < x.1.stop) ∧
      (words.map (·.1)).Pairwise (·.stop ≤ ·.start) := by
  induction h with
  | nil => exact ⟨forall_mem_nil _, .nil⟩
  | gap _ _ ih => exact ⟨fun x hx => ⟨by have := (ih.1 x hx).1; omega, (ih.1 x hx).2⟩, ih.2⟩
  | @token start t w cs words h _ ih =>
    have hpos : 0 < Text.byteLength w := by
      obtain ⟨c, w', rfl⟩ := exists_cons_of_ne_nil h.ne_nil
      have := c.utf8Size_pos
      rw [Text.byteLength_cons]
      omega
    refine ⟨forall_mem_cons.2 ⟨⟨Nat.le_refl _, by simp; omega⟩, fun x hx => ?_⟩, ?_⟩
    · have := ih.1 x hx
      omega
    · refine pairwise_cons.2 ⟨fun x hx => ?_, ih.2⟩
      obtain ⟨y, hy, rfl⟩ := mem_map.1 hx
      exact (ih.1 y hy).1

theorem Tiles.cons {start : Nat} {p : Piece} {tail : List Char} {words : List (Spanned × List Char)}
    (h : Cuts p cs) (htail : Tiles tail (start + Text.byteLength p.text) cs words) :
    ∃ words', Tiles tail start (p.text ++ cs) words' ∧
      ∀ ps, words.map (·.1) = spans (start + Text.byteLength p.text) ps →
        words'.map (·.1) = spans start (p :: ps) := by
  obtain ⟨token?, w⟩ := p
  cases token? with
  | none => exact ⟨words, .gap h htail, fun ps hps => hps⟩
  | some t => exact ⟨_, .token h htail, fun ps hps => congrArg _ hps⟩

/-- **A text is tiled as far as it can be read.** -/
theorem tiles_pieces (start : Nat) (cs : List Char) :
    (∃ ps words, pieces cs = .ok ps ∧ words.map (·.1) = spans start ps ∧ Tiles [] start cs words) ∨
    ∃ before rest words, pieces cs = .error rest ∧ cs = before ++ rest ∧ Stuck rest ∧
      Tiles rest start cs words := by
  fun_induction pieces cs generalizing start with
  | case1 => exact Or.inl ⟨[], [], rfl, rfl, .nil⟩
  | case2 c cs hscan =>
    rcases munch?_cases (c :: cs) with ⟨_, hstuck⟩ | ⟨_, _, _, hsome, _⟩
    · exact Or.inr ⟨[], c :: cs, [], rfl, rfl, hstuck, .nil⟩
    · rw [scan, hsome] at hscan
      cases hscan
  | case3 c cs p rest hscan ih =>
    rcases munch?_cases (c :: cs) with ⟨hnone, _⟩ | ⟨token?, w, rest', hsome, hcs, hcuts⟩
    · rw [scan, hnone] at hscan
      cases hscan
    · rw [scan, hsome, hcs] at hscan
      simp only [Option.map_some, take_left, drop_left, Option.some.injEq,
        Prod.mk.injEq] at hscan
      obtain ⟨rfl, rfl⟩ := hscan
      rw [hcs]
      rcases ih (start + Text.byteLength w) with ⟨ps, words, hps, hwords, htiles⟩ |
        ⟨before, tail, words, herror, rfl, hstuck, htiles⟩
      · obtain ⟨words', htiles', hspans⟩ := Tiles.cons hcuts htiles
        exact Or.inl ⟨_, words', by rw [hps]; rfl, hspans ps hwords, htiles'⟩
      · obtain ⟨words', htiles', _⟩ := Tiles.cons hcuts htiles
        exact Or.inr ⟨w ++ before, tail, words', by rw [herror]; rfl, (append_assoc _ _ _).symm,
          hstuck, htiles'⟩

/-- The tokens of a text are those of its tiling. -/
theorem exists_tiles_of_tokenize {source : String} {tokens : List Spanned}
    (h : tokenize source = .ok tokens) :
    ∃ words, words.map (·.1) = tokens ∧ Tiles [] 0 source.toList words := by
  rw [tokenize] at h
  rcases tiles_pieces 0 source.toList with ⟨ps, words, hps, hwords, htiles⟩ | ⟨_, _, _, herror, _⟩
  · rw [hps] at h
    cases h
    exact ⟨words, hwords, htiles⟩
  · rw [herror] at h
    cases h

end Lexer

/-- **Tokens tile the source.** The tokens of a text cover bytes one after the other, none without bytes,
and what is left between them are blanks and comments. Each is the longest match at its place, and is read
again if the texts of the tokens are joined by blanks. Otherwise the text is tiled up to the place that the
error names, where nothing can be read. -/
theorem tokens_tile_the_source (source : String) :
    (∀ tokens, tokenize source = .ok tokens → ∃ words,
      Lexer.Tiles [] 0 source.toList words ∧ words.map (·.1) = tokens ∧
      (∀ t ∈ tokens, t.start < t.stop) ∧ tokens.Pairwise (·.stop ≤ ·.start) ∧
      ∃ again, tokenize (.ofList ([' '].intercalate (words.map (·.2)))) = .ok again ∧
        again.map (·.token) = tokens.map (·.token)) ∧
    ∀ e, tokenize source = .error e → ∃ before rest words, source.toList = before ++ rest ∧
      Lexer.Tiles rest 0 source.toList words ∧ Lexer.Stuck rest ∧
      e = .ofOffset source (Text.byteLength before) := by
  refine ⟨fun tokens h => ?_, fun e h => ?_⟩
  · obtain ⟨words, rfl, htiles⟩ := Lexer.exists_tiles_of_tokenize h
    refine ⟨words, htiles, rfl, fun t ht => ?_, htiles.ordered.2, ?_⟩
    · obtain ⟨x, hx, rfl⟩ := List.mem_map.1 ht
      exact (htiles.ordered.1 x hx).2
    · have hspells : List.Forall₂ Lexer.Spells (words.map (·.2)) (words.map (·.1.token)) :=
        List.forall₂_map_left_iff.2 (List.forall₂_map_right_iff.2
          (List.forall₂_same.2 htiles.spells))
      obtain ⟨again, hagain, htokens⟩ := Lexer.pieces_intercalate hspells
      refine ⟨Lexer.spans 0 again, by rw [tokenize, String.toList_ofList, hagain], ?_⟩
      rw [Lexer.map_token_spans, htokens, map_map]
      rfl
  · rw [tokenize] at h
    rcases Lexer.tiles_pieces 0 source.toList with ⟨ps, _, hps, _, _⟩ |
      ⟨before, rest, words, herror, hsource, hstuck, htiles⟩
    · rw [hps] at h
      cases h
    · rw [herror] at h
      cases h
      refine ⟨before, rest, words, hsource, htiles, hstuck, ?_⟩
      rw [hsource, Text.byteLength_append, Nat.add_sub_cancel]

/-- The end of a comment makes room for a token, and a number that is too large is not cut in two. -/
theorem tokens_tile_the_source_comment :
    (∃ words, Lexer.Tiles [] 0 "/**/x".toList words ∧ words.map (·.1) = [⟨.ident "x", 4, 5⟩]) ∧
    ∃ before rest words, "x 2147483648".toList = before ++ rest ∧
      Lexer.Tiles rest 0 "x 2147483648".toList words ∧ Lexer.Stuck rest ∧ Text.byteLength before = 2 := by
  have hok : tokenize "/**/x" = .ok [⟨.ident "x", 4, 5⟩] := by cbv
  have herror : tokenize "x 2147483648" = .error (.ofOffset "x 2147483648" 2) := by cbv
  obtain ⟨words, htiles, hwords, _⟩ := (tokens_tile_the_source "/**/x").1 _ hok
  obtain ⟨before, rest, words', hsource, htiles', hstuck, heq⟩ :=
    (tokens_tile_the_source "x 2147483648").2 _ herror
  exact ⟨⟨words, htiles, hwords⟩, before, rest, words', hsource, htiles', hstuck,
    (congrArg LexicalError.offset heq).symm⟩

end MiniJava
