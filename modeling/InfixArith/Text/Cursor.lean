/-!
# Words of a text

A word is a run of characters other than the space, as long as it can be. Places in a text are byte
offsets into its UTF-8 form, and only the offsets at which a character begins, or the text ends, are
places at all. A cursor carries its offset and the text from there on, so that reading the words one
after another passes over the text once.
-/

namespace InfixArith.Text

/-- The number of bytes that characters take in UTF-8. -/
def byteLength (chars : List Char) : Nat := chars.foldr (fun c bytes => c.utf8Size + bytes) 0

/-- The characters from a byte offset on. -/
def dropBytes? : Nat → List Char → Option (List Char)
  | 0, chars => some chars
  | _ + 1, [] => none
  | offset + 1, c :: chars =>
      if c.utf8Size ≤ offset + 1 then dropBytes? (offset + 1 - c.utf8Size) chars else none

def isSpace (c : Char) : Bool := c == ' '

def words (chars : List Char) : List (List Char) :=
  (chars.foldr (fun c runs => if isSpace c then [] :: runs else
    match runs with
    | [] => [[c]]
    | run :: runs => (c :: run) :: runs) [[]]).filter (· ≠ [])

structure Cursor where
  offset : Nat
  rest : List Char
deriving DecidableEq, Repr

namespace Cursor

def start (chars : List Char) : Cursor := ⟨0, chars⟩

def at? (chars : List Char) (offset : Nat) : Option Cursor :=
  (dropBytes? offset chars).map (⟨offset, ·⟩)

/-- The first word at or after a cursor, and the cursor behind it. -/
def word? (cursor : Cursor) : Option (List Char × Cursor) :=
  let spaces := cursor.rest.takeWhile isSpace
  let unspaced := cursor.rest.dropWhile isSpace
  let word := unspaced.takeWhile (!isSpace ·)
  if word = [] then none
  else
    some (word,
      ⟨cursor.offset + byteLength spaces + byteLength word, unspaced.dropWhile (!isSpace ·)⟩)

/-- The cursor one byte on, behind the space that ends a word. At the end of the text it steps past
the end. -/
def advance (cursor : Cursor) : Cursor := ⟨cursor.offset + 1, cursor.rest.tail⟩

theorem length_rest_lt_of_word? {cursor stop : Cursor} {word : List Char}
    (h : cursor.word? = some (word, stop)) : stop.rest.length < cursor.rest.length := by
  simp only [word?] at h
  split at h
  · cases h
  next hword =>
    obtain ⟨rfl, rfl⟩ := Prod.mk.inj (Option.some.inj h)
    have hspaces :=
      congrArg List.length (List.takeWhile_append_dropWhile (p := isSpace) (l := cursor.rest))
    have hsplit := congrArg List.length
      (List.takeWhile_append_dropWhile (p := (!isSpace ·)) (l := cursor.rest.dropWhile isSpace))
    have hpos := List.length_pos_iff.mpr hword
    simp only [List.length_append] at hspaces hsplit ⊢
    omega

theorem length_rest_advance_le (cursor : Cursor) :
    cursor.advance.rest.length ≤ cursor.rest.length := by
  simp [advance]

end Cursor

/-- The first word at or after a byte offset, and the offset behind it. There is none from an offset
at which no character begins. -/
def nextWord? (text : String) (offset : Nat) : Option (String × Nat) :=
  ((Cursor.at? text.toList offset).bind Cursor.word?).map fun (word, stop) =>
    (String.ofList word, stop.offset)

end InfixArith.Text
