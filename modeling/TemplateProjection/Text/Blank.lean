import TemplateProjection.Text.Basic

/-! Blank characters and the trimming of texts. -/
namespace TemplateProjection

/-- The characters with the Unicode property White_Space. -/
def isBlank (c : Char) : Bool :=
  let n := c.toNat
  (0x09 ≤ n && n ≤ 0x0d) || n == 0x20 || n == 0x85 || n == 0xa0 || n == 0x1680 ||
    (0x2000 ≤ n && n ≤ 0x200a) || n == 0x2028 || n == 0x2029 || n == 0x202f || n == 0x205f ||
    n == 0x3000

/-- Space, tab, line feed, form feed and carriage return. The vertical tab is not among them. -/
def isAsciiBlank (c : Char) : Bool :=
  c == ' ' || c == '\t' || c == '\n' || c == '\x0c' || c == '\r'

theorem isBlank_of_isAsciiBlank {c : Char} (h : isAsciiBlank c) : isBlank c := by
  simp only [isAsciiBlank, Bool.or_eq_true, beq_iff_eq] at h
  obtain (((rfl | rfl) | rfl) | rfl) | rfl := h <;> decide

namespace Text

def trimStart (t : Text) : Text := t.dropWhile isBlank

def trimEnd (t : Text) : Text := t.dropTrailing isBlank

def trim (t : Text) : Text := t.trimStart.trimEnd

/-- The text has no character other than blanks. -/
def allBlank (t : Text) : Bool := t.all isBlank

end Text

namespace Excerpt

/-- The excerpt without blanks at either end. Of a blank excerpt its end remains. -/
def trim (e : Excerpt) : Excerpt := (e.dropWhile isBlank).dropTrailing isBlank

end Excerpt

end TemplateProjection
