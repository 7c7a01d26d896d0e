/-!
# Byte offsets

A text is a list of characters; offsets into it count the bytes of its UTF-8 form. A `Span` is a
pair of such offsets and need not lie inside any text.
-/

namespace DiagramTint

/-- A half-open range of byte offsets. Nothing forces `start ≤ stop`. -/
structure Span where
  start : Nat
  stop : Nat
deriving DecidableEq, Inhabited

/-- The written form `start..stop`. -/
def Span.render (s : Span) : String :=
  s!"{s.start}..{s.stop}"

/-- Both ends cut down to `limit`. -/
def Span.clamp (s : Span) (limit : Nat) : Span :=
  ⟨min s.start limit, min s.stop limit⟩

namespace Text

/-- The number of bytes of a text. -/
def byteLength : List Char → Nat
  | [] => 0
  | c :: cs => c.utf8Size + byteLength cs

/-- What follows the first `n` bytes; none if the text is shorter or `n` cuts a character. -/
def dropBytes : Nat → List Char → Option (List Char)
  | 0, cs => some cs
  | _ + 1, [] => none
  | n + 1, c :: cs => if c.utf8Size ≤ n + 1 then dropBytes (n + 1 - c.utf8Size) cs else none

/-- The first `n` bytes; none if the text is shorter or `n` cuts a character. -/
def takeBytes : Nat → List Char → Option (List Char)
  | 0, _ => some []
  | _ + 1, [] => none
  | n + 1, c :: cs =>
    if c.utf8Size ≤ n + 1 then (takeBytes (n + 1 - c.utf8Size) cs).map (c :: ·) else none

/-- The part of a text that a span covers, if both ends are character boundaries in order. -/
def slice? (cs : List Char) (s : Span) : Option (List Char) :=
  if s.start ≤ s.stop then (dropBytes s.start cs).bind (takeBytes (s.stop - s.start)) else none

@[simp]
theorem byteLength_nil : byteLength [] = 0 := rfl

@[simp]
theorem byteLength_cons (c : Char) (cs : List Char) :
    byteLength (c :: cs) = c.utf8Size + byteLength cs := rfl

@[simp]
theorem byteLength_append (xs ys : List Char) :
    byteLength (xs ++ ys) = byteLength xs + byteLength ys := by
  induction xs with
  | nil => simp
  | cons c xs ih => simp [ih, Nat.add_assoc]

end Text

end DiagramTint
