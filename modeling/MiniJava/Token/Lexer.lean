import MiniJava.Text
import MiniJava.Token

/-!
# Cutting a text into tokens

A source text is a sequence of pieces: tokens, and the blanks and comments between them. `scan` cuts
off the first piece by longest match, `pieces` cuts up the whole text, and `tokenize` keeps the
tokens with the bytes they cover.
-/

namespace MiniJava

/-- A stretch of source text: a token, or text between tokens. -/
structure Piece where
  token? : Option Token
  text : List Char
  deriving DecidableEq, Repr

namespace Lexer

def isGap (c : Char) : Bool := c == ' ' || c == '\t' || c == '\r' || c == '\n' || c == '\x0c'

def startsWord (c : Char) : Bool := c.isAlpha || c == '_'

def inWord (c : Char) : Bool := c.isAlphanum || c == '_'

/-- Length of the text up to the end of the first `*/`. -/
def commentEnd? : List Char → Option Nat
  | '*' :: '/' :: _ => some 2
  | _ :: cs => (commentEnd? cs).map (· + 1)
  | [] => none

def decimal (digits : List Char) : Nat := digits.foldl (fun n d => 10 * n + (d.toNat - '0'.toNat)) 0

def maxNumber : Nat := 2147483647

/-- What follows the word `System` in the printing keyword. -/
def printlnTail : List Char :=
  ['.', 'o', 'u', 't', '.', 'p', 'r', 'i', 'n', 't', 'l', 'n']

/-- The token for a text that starts with an identifier character, and its length. The printing
keyword is the one token that goes on after the word. -/
def word (cs : List Char) : Token × Nat :=
  let name := cs.takeWhile inWord
  if name = ['S', 'y', 's', 't', 'e', 'm'] ∧ printlnTail.isPrefixOf (cs.drop name.length) then
    (.keyword .printlnKw, name.length + printlnTail.length)
  else
    match Keyword.ofWord? (.ofList name) with
    | some k => (.keyword k, name.length)
    | none => (.ident (.ofList name), name.length)

/-- The token for a text that starts with a digit, and its length. -/
def number? (cs : List Char) : Option (Token × Nat) :=
  let digits := cs.takeWhile Char.isDigit
  if decimal digits ≤ maxNumber then
    some (.number (.ofNat (decimal digits)), digits.length)
  else none

/-- The symbol a text starts with, and its length. -/
def symbol? (cs : List Char) : Option (Token × Nat) :=
  (Symbol.all.find? fun s => s.chars.isPrefixOf cs).map fun s => (.symbol s, s.chars.length)

/-- The token or gap a text starts with, and its length. -/
def munch? : List Char → Option (Option Token × Nat)
  | [] => none
  | '/' :: '/' :: cs => some (none, 2 + (cs.takeWhile (· ≠ '\n')).length)
  | '/' :: '*' :: cs => (commentEnd? cs).map fun n => (none, 2 + n)
  | c :: cs =>
    if isGap c then some (none, 1 + (cs.takeWhile isGap).length)
    else if startsWord c then
      let (token, n) := word (c :: cs)
      some (some token, n)
    else if c.isDigit then (number? (c :: cs)).map fun (token, n) => (some token, n)
    else (symbol? (c :: cs)).map fun (token, n) => (some token, n)

theorem word_pos {c : Char} {cs : List Char} (h : startsWord c) : 0 < (word (c :: cs)).2 := by
  have hc : inWord c = true := by
    simp only [startsWord, Bool.or_eq_true] at h
    simp only [inWord, Char.isAlphanum, Bool.or_eq_true]
    rcases h with h | h
    · exact Or.inl (Or.inl h)
    · exact Or.inr h
  unfold word
  simp only [List.takeWhile_cons_of_pos hc]
  split
  · simp only [List.length_cons]
    omega
  · split <;> simp

theorem number?_pos {c : Char} {cs : List Char} {token : Token} {n : Nat} (h : c.isDigit)
    (hn : number? (c :: cs) = some (token, n)) : 0 < n := by
  unfold number? at hn
  simp only [List.takeWhile_cons_of_pos h] at hn
  split at hn
  · simp only [Option.some.injEq, Prod.mk.injEq] at hn
    rw [← hn.2]
    simp
  · simp at hn

theorem symbol?_pos {cs : List Char} {token : Token} {n : Nat}
    (hn : symbol? cs = some (token, n)) : 0 < n := by
  unfold symbol? at hn
  obtain ⟨s, -, hs⟩ := Option.map_eq_some_iff.1 hn
  simp only [Prod.mk.injEq] at hs
  rw [← hs.2]
  exact List.length_pos_iff.2 s.chars_ne_nil

theorem munch?_pos {cs : List Char} {token? : Option Token} {n : Nat}
    (h : munch? cs = some (token?, n)) : 0 < n := by
  unfold munch? at h
  split at h
  · simp at h
  · simp only [Option.some.injEq, Prod.mk.injEq] at h
    omega
  · obtain ⟨m, -, hm⟩ := Option.map_eq_some_iff.1 h
    simp only [Prod.mk.injEq] at hm
    omega
  · rename_i c cs _ _
    split at h
    · simp only [Option.some.injEq, Prod.mk.injEq] at h
      omega
    · split at h
      · rename_i hw
        simp only [Option.some.injEq, Prod.mk.injEq] at h
        rw [← h.2]
        exact word_pos hw
      · split at h
        · rename_i hd
          obtain ⟨⟨t, m⟩, hm, ht⟩ := Option.map_eq_some_iff.1 h
          simp only [Prod.mk.injEq] at ht
          rw [← ht.2]
          exact number?_pos hd hm
        · obtain ⟨⟨t, m⟩, hm, ht⟩ := Option.map_eq_some_iff.1 h
          simp only [Prod.mk.injEq] at ht
          rw [← ht.2]
          exact symbol?_pos hm

def scan (cs : List Char) : Option (Piece × List Char) :=
  (munch? cs).map fun (token?, n) => (⟨token?, cs.take n⟩, cs.drop n)

theorem scan_append {cs rest : List Char} {p : Piece} (h : scan cs = some (p, rest)) :
    p.text ++ rest = cs := by
  obtain ⟨⟨t, n⟩, -, hp⟩ := Option.map_eq_some_iff.1 h
  simp only [Prod.mk.injEq] at hp
  rw [← hp.1, ← hp.2]
  exact List.take_append_drop n cs

theorem scan_ne_nil {cs rest : List Char} {p : Piece} (h : scan cs = some (p, rest)) :
    p.text ≠ [] := by
  obtain ⟨⟨t, n⟩, hm, hp⟩ := Option.map_eq_some_iff.1 h
  simp only [Prod.mk.injEq] at hp
  have hcs : cs ≠ [] := by
    rintro rfl
    simp [munch?] at hm
  have hn := munch?_pos hm
  rw [← hp.1]
  simp [hcs]
  omega

theorem length_lt_of_scan {cs rest : List Char} {p : Piece} (h : scan cs = some (p, rest)) :
    rest.length < cs.length := by
  have hlen := congrArg List.length (scan_append h)
  have hpos := List.length_pos_iff.2 (scan_ne_nil h)
  simp only [List.length_append] at hlen
  omega

/-- Cuts up a text. If some place starts no piece, the text from there on is the error. -/
def pieces : List Char → Except (List Char) (List Piece)
  | [] => .ok []
  | c :: cs =>
    match _ : scan (c :: cs) with
    | none => .error (c :: cs)
    | some (p, rest) => (pieces rest).map (p :: ·)
termination_by cs => cs.length
decreasing_by exact length_lt_of_scan ‹_›

theorem flatten_pieces {cs : List Char} {ps : List Piece} (h : pieces cs = .ok ps) :
    (ps.map Piece.text).flatten = cs := by
  fun_induction pieces cs generalizing ps with
  | case1 =>
    cases h
    rfl
  | case2 => cases h
  | case3 c cs p rest hp ih =>
    cases hr : pieces rest with
    | error e => simp [hr, Except.map] at h
    | ok qs =>
      simp only [hr, Except.map, Except.ok.injEq] at h
      subst h
      simpa [ih hr] using scan_append hp

/-- The tokens among some pieces, where the first piece starts at byte `start`. -/
def spans (start : Nat) : List Piece → List Spanned
  | [] => []
  | p :: ps =>
    let stop := start + Text.byteLength p.text
    match p.token? with
    | some token => ⟨token, start, stop⟩ :: spans stop ps
    | none => spans stop ps

end Lexer

/-- A place where no token, blank or comment starts. -/
structure LexicalError where
  /-- Byte offset of the place. -/
  offset : Nat
  position : Text.Position
  /-- The character at the place. -/
  found : Char
  /-- The line around the place. -/
  context : String
  deriving DecidableEq, Repr

namespace LexicalError

/-- The error for a place given by its byte offset. -/
def ofOffset (source : String) (offset : Nat) : LexicalError :=
  ⟨offset, Text.position source offset, Text.charAt source offset, Text.lineAt source offset⟩

def message (e : LexicalError) : String :=
  s!"Unexpected character '{e.found}' at line {e.position.line}, column {e.position.column}\n" ++
    s!"  Context: {e.context}"

end LexicalError

/-- The tokens of a source text in order, or the first place where none can be read. -/
def tokenize (source : String) : Except LexicalError (List Spanned) :=
  match Lexer.pieces source.toList with
  | .ok ps => .ok (Lexer.spans 0 ps)
  | .error rest =>
    .error (.ofOffset source (Text.byteLength source.toList - Text.byteLength rest))

end MiniJava
