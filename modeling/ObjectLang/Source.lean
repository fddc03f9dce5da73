import ObjectLang.Text.Blank

/-!
Program texts and places in them.
A place counts lines and columns from one and bytes from zero; a column is a character, and only a
line feed ends a line. A cursor is a place together with the text that follows it.
-/
namespace ObjectLang

def byteLength : List Char → Nat
  | [] => 0
  | c :: cs => c.utf8Size + byteLength cs

@[simp] theorem byteLength_append (xs ys : List Char) :
    byteLength (xs ++ ys) = byteLength xs + byteLength ys := by
  induction xs with
  | nil => simp [byteLength]
  | cons c cs ih => simp [byteLength, ih, Nat.add_assoc]

/-- The characters in front of byte `n` and those behind it, unless the byte is inside of a
character or behind the end. -/
def splitBytes? : Nat → List Char → Option (List Char × List Char)
  | 0, cs => some ([], cs)
  | _ + 1, [] => none
  | n + 1, c :: cs =>
    if c.utf8Size ≤ n + 1 then
      (splitBytes? (n + 1 - c.utf8Size) cs).map fun parts => (c :: parts.1, parts.2)
    else none

structure Position where
  line : Nat
  column : Nat
  offset : Nat
deriving DecidableEq

namespace Position

def start : Position := ⟨1, 1, 0⟩

def advance (p : Position) (c : Char) : Position :=
  if c = '\n' then ⟨p.line + 1, 1, p.offset + c.utf8Size⟩
  else ⟨p.line, p.column + 1, p.offset + c.utf8Size⟩

@[simp] theorem offset_advance (p : Position) (c : Char) :
    (p.advance c).offset = p.offset + c.utf8Size := by
  unfold advance
  split <;> rfl

end Position

structure Span where
  start : Position
  stop : Position
deriving DecidableEq

def Span.ofPosition (p : Position) : Span := ⟨p, p⟩

/-- A program text with the name it goes by in messages. -/
structure Source where
  name : Option String
  text : String
deriving DecidableEq

namespace Source

def ofText (text : String) : Source := ⟨some "<input>", text⟩

def title (s : Source) : String := s.name.getD "<unknown>"

def size (s : Source) : Nat := s.text.utf8ByteSize

def isEmpty (s : Source) : Bool := s.size == 0

/-- The text from byte `i` up to byte `j`, unless they are no places in the text in this order. -/
def slice? (s : Source) (i j : Nat) : Option (List Char) := do
  let (front, _) ← splitBytes? j s.text.toList
  let (_, part) ← splitBytes? i front
  return part

/-- The text of the lines that a span touches, from behind the last line feed in front of it up to
the next one behind it: a line feed belongs to the line that it ends. -/
def touched? (s : Source) (span : Span) : Option (List Char) := do
  let start := min span.start.offset s.size
  let stop := max start (min span.stop.offset s.size)
  let front ← s.slice? 0 start
  let behind ← s.slice? stop s.size
  s.slice? (byteLength (front.reverse.dropWhile (· != '\n')))
    (stop + byteLength (behind.takeWhile (· != '\n')))

end Source

def takeBytes : Nat → List Char → List Char
  | _, [] => []
  | 0, _ => []
  | n, c :: cs => c :: takeBytes (n - c.utf8Size) cs

structure Cursor where
  pos : Position
  rest : List Char

namespace Cursor

def ofSource (s : Source) : Cursor := ⟨.start, s.text.toList⟩

def upTo (c : Cursor) (stop : Position) : List Char :=
  takeBytes (stop.offset - c.pos.offset) c.rest

def accept : List Char → Cursor → Option Cursor
  | [], c => some c
  | w :: word, ⟨pos, c :: rest⟩ => if c = w then accept word ⟨pos.advance c, rest⟩ else none
  | _ :: _, ⟨_, []⟩ => none

def acceptChar (p : Char → Bool) : Cursor → Option Cursor
  | ⟨pos, c :: rest⟩ => if p c then some ⟨pos.advance c, rest⟩ else none
  | ⟨_, []⟩ => none

def isGapChar (c : Char) : Bool := c == ' ' || c == '\t' || c == '\r' || c == '\n'

/-- Moves over blanks and comments; `inside` says that a comment is open. A comment starts with two
slashes and runs up to the end of its line. -/
def skipFrom (inside : Bool) (pos : Position) : List Char → Cursor
  | [] => ⟨pos, []⟩
  | '/' :: '/' :: rest =>
    skipFrom true ((pos.advance '/').advance '/') rest
  | c :: rest =>
    if inside then skipFrom (c != '\n') (pos.advance c) rest
    else if isGapChar c then skipFrom false (pos.advance c) rest
    else ⟨pos, c :: rest⟩

def skipGap (c : Cursor) : Cursor := skipFrom false c.pos c.rest

end Cursor

end ObjectLang
