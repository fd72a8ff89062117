/-! Text as its list of characters, measured in UTF-8 bytes; spans and excerpts of a text. -/
namespace TemplateProjection

/-- A text is its list of characters. Offsets and lengths into it count UTF-8 bytes. -/
abbrev Text := List Char

instance : Coe String Text := ⟨String.toList⟩

namespace Text

/-- The number of bytes of the UTF-8 encoding. -/
def byteLength : Text → Nat
  | [] => 0
  | c :: t => c.utf8Size + byteLength t

@[simp]
theorem byteLength_nil : byteLength [] = 0 := rfl

@[simp]
theorem byteLength_cons (c : Char) (t : Text) :
    byteLength (c :: t) = c.utf8Size + byteLength t := rfl

@[simp]
theorem byteLength_append (s t : Text) : byteLength (s ++ t) = byteLength s + byteLength t := by
  induction s with
  | nil => simp
  | cons c s ih => simp [ih, Nat.add_assoc]

theorem length_dropWhile_le (p : Char → Bool) (t : Text) : (t.dropWhile p).length ≤ t.length :=
  (List.dropWhile_sublist p).length_le

/-- Cut at a byte offset. There is no cut inside a character or past the end. -/
def cut? : Text → Nat → Option (Text × Text)
  | t, 0 => some ([], t)
  | [], _ + 1 => none
  | c :: t, n + 1 =>
    if c.utf8Size ≤ n + 1 then
      (cut? t (n + 1 - c.utf8Size)).map fun (before, after) => (c :: before, after)
    else none

/-- What follows the byte offset, if a cut is possible there. -/
def from? (t : Text) (offset : Nat) : Option Text := (t.cut? offset).map Prod.snd

/-- What precedes the byte offset, if a cut is possible there. -/
def upTo? (t : Text) (offset : Nat) : Option Text := (t.cut? offset).map Prod.fst

/-- What follows `lead`, when the text starts with it. -/
def after? : (lead t : Text) → Option Text
  | [], t => some t
  | _ :: _, [] => none
  | a :: lead, b :: t => if a = b then after? lead t else none

theorem append_of_after? {lead t rest : Text} (h : after? lead t = some rest) :
    lead ++ rest = t := by
  induction lead generalizing t with
  | nil => simpa [after?] using h.symm
  | cons a lead ih =>
    cases t with
    | nil => simp [after?] at h
    | cons b t =>
      simp only [after?] at h
      split at h
      · next hab => simp [hab, ih h]
      · simp at h

/-- Divide a text before its first nonempty tail in `stop`. -/
def breakAt (stop : Text → Bool) : Text → Text × Text
  | [] => ([], [])
  | c :: t =>
    if stop (c :: t) then ([], c :: t)
    else (c :: (breakAt stop t).1, (breakAt stop t).2)

theorem breakAt_append (stop : Text → Bool) (t : Text) :
    (breakAt stop t).1 ++ (breakAt stop t).2 = t := by
  induction t with
  | nil => rfl
  | cons c t ih =>
    simp only [breakAt]
    split <;> simp [ih]

/-- The text without the longest tail of characters in `p`. -/
def dropTrailing (p : Char → Bool) (t : Text) : Text := (t.reverse.dropWhile p).reverse

/-- What precedes `tail`, when the text ends with it. -/
def before? (tail t : Text) : Option Text := (after? tail.reverse t.reverse).map List.reverse

/-- ASCII letters compare without case, all other characters exactly. -/
def eqIgnoringCase (s t : Text) : Bool := s.map Char.toLower == t.map Char.toLower

end Text

/-- A range of byte offsets. -/
structure Span where
  start : Nat
  length : Nat
deriving DecidableEq, Repr

namespace Span

def stop (s : Span) : Nat := s.start + s.length

/-- The span between two offsets. -/
def between (start stop : Nat) : Span := ⟨start, stop - start⟩

/-- The span of no bytes at an offset. -/
def empty (offset : Nat) : Span := ⟨offset, 0⟩

/-- Containment; the ends may touch. -/
def contains (s t : Span) : Bool := s.start ≤ t.start && t.stop ≤ s.stop

/-- The common part. Spans that only touch share an empty span. -/
def inter? (s t : Span) : Option Span :=
  let start := max s.start t.start
  let stop := min s.stop t.stop
  if start ≤ stop then some (between start stop) else none

/-- The least span around both. -/
def cover (s t : Span) : Span := between (min s.start t.start) (max s.stop t.stop)

/-- The same bytes after `offset` more have been put in front. -/
def shift (s : Span) (offset : Nat) : Span := ⟨s.start + offset, s.length⟩

end Span

namespace Text

/-- The part of the text in a span, if both ends can be cut. -/
def slice? (t : Text) (s : Span) : Option Text := do
  let after ← t.from? s.start
  after.upTo? s.length

def slice (t : Text) (s : Span) : Text := (t.slice? s).getD []

end Text

/-- A piece of text together with the offset at which it stands in a larger one. -/
structure Excerpt where
  start : Nat
  text : Text
deriving DecidableEq, Repr

namespace Excerpt

def span (e : Excerpt) : Span := ⟨e.start, e.text.byteLength⟩

def stop (e : Excerpt) : Nat := e.start + e.text.byteLength

/-- The excerpt stands in `source` at its offset. -/
def In (e : Excerpt) (source : Text) : Prop :=
  ∃ before after, source = before ++ e.text ++ after ∧ before.byteLength = e.start

def takeWhile (p : Char → Bool) (e : Excerpt) : Excerpt := ⟨e.start, e.text.takeWhile p⟩

def dropWhile (p : Char → Bool) (e : Excerpt) : Excerpt :=
  ⟨e.start + Text.byteLength (e.text.takeWhile p), e.text.dropWhile p⟩

def dropTrailing (p : Char → Bool) (e : Excerpt) : Excerpt := ⟨e.start, e.text.dropTrailing p⟩

/-- The excerpt without its first `n` characters. -/
def drop (n : Nat) (e : Excerpt) : Excerpt :=
  ⟨e.start + Text.byteLength (e.text.take n), e.text.drop n⟩

/-- Divide an excerpt before the first nonempty tail of its text in `stop`. -/
def breakAt (stop : Text → Bool) (e : Excerpt) : Excerpt × Excerpt :=
  let (head, rest) := e.text.breakAt stop
  (⟨e.start, head⟩, ⟨e.start + head.byteLength, rest⟩)

def take (n : Nat) (e : Excerpt) : Excerpt := ⟨e.start, e.text.take n⟩

end Excerpt

end TemplateProjection
