/-!
# Places in a source text

A place in a source text is a byte offset into its UTF-8 form. Messages name it by line and column,
both counted from one, and quote the line it lies on. The text is read as a list of characters, so
every question about a place is a question about the two halves of `splitAtByte`.
-/

namespace MiniJava.Text

/-- Number of bytes of the UTF-8 form of some characters. -/
def byteLength : List Char → Nat
  | [] => 0
  | c :: cs => c.utf8Size + byteLength cs

@[simp] theorem byteLength_nil : byteLength [] = 0 := rfl

@[simp] theorem byteLength_cons (c : Char) (cs : List Char) :
    byteLength (c :: cs) = c.utf8Size + byteLength cs := rfl

@[simp] theorem byteLength_append (cs ds : List Char) :
    byteLength (cs ++ ds) = byteLength cs + byteLength ds := by
  induction cs with
  | nil => simp
  | cons c cs ih => simp [ih, Nat.add_assoc]

/-- Cuts a text before the first character that starts at byte `offset` or after it. -/
def splitAtByte : List Char → Nat → List Char × List Char
  | [], _ => ([], [])
  | c :: cs, 0 => ([], c :: cs)
  | c :: cs, offset + 1 =>
    let (before, after) := splitAtByte cs (offset + 1 - c.utf8Size)
    (c :: before, after)

theorem append_splitAtByte (cs : List Char) (offset : Nat) :
    (splitAtByte cs offset).1 ++ (splitAtByte cs offset).2 = cs := by
  fun_induction splitAtByte cs offset with
  | case1 => rfl
  | case2 => rfl
  | case3 c cs offset before after h ih => simpa [h] using ih

structure Position where
  line : Nat
  column : Nat
  deriving DecidableEq, Repr

def lastLine (cs : List Char) : List Char := (cs.reverse.takeWhile (· ≠ '\n')).reverse

/-- The part of a text before its first line break. -/
def firstLine (cs : List Char) : List Char := cs.takeWhile (· ≠ '\n')

/-- Line and column of a byte offset. An offset past the end counts as the end. -/
def position (source : String) (offset : Nat) : Position :=
  let before := (splitAtByte source.toList offset).1
  ⟨1 + before.count '\n', 1 + (lastLine before).length⟩

/-- The characters that Unicode calls white space. -/
def isBlank (c : Char) : Bool :=
  let n := c.toNat
  (9 ≤ n && n ≤ 13) || n == 0x20 || n == 0x85 || n == 0xA0 || n == 0x1680 ||
    (0x2000 ≤ n && n ≤ 0x200A) || n == 0x2028 || n == 0x2029 || n == 0x202F || n == 0x205F ||
    n == 0x3000

def trim (cs : List Char) : List Char :=
  ((cs.dropWhile isBlank).reverse.dropWhile isBlank).reverse

def lineAt (source : String) (offset : Nat) : String :=
  let (before, after) := splitAtByte source.toList offset
  .ofList (trim (lastLine before ++ firstLine after))

/-- The character at a byte offset, or NUL at the end of the text. -/
def charAt (source : String) (offset : Nat) : Char :=
  (splitAtByte source.toList offset).2.headD '\x00'

end MiniJava.Text
