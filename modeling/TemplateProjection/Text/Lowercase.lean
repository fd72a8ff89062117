import TemplateProjection.Text.Basic
import TemplateProjection.Text.CaseTable

/-! Lower case by the full rules: one letter has two characters for its lower case, and a capital
sigma depends on the letters around it. -/
namespace TemplateProjection

def isCased (c : Char) : Bool := CaseTable.cased.any fun (a, b) => a ≤ c.toNat && c.toNat ≤ b

def isCaseIgnorable (c : Char) : Bool :=
  CaseTable.caseIgnorable.any fun (a, b) => a ≤ c.toNat && c.toNat ≤ b

/-- The lower case of a character by itself. -/
def lowercaseChar (c : Char) : Text :=
  if c.toNat < 0x80 then [c.toLower]
  else if c.toNat = 0x130 then ['i', '\u0307']
  else match CaseTable.lowercase.find? fun (r, _) => r.contains c.toNat with
    | some (_, distance) => [Char.ofNat (c.toNat + distance).toNat]
    | none => [c]

/-- The first character that matters to case is a cased one. -/
def startsCased (t : Text) : Bool :=
  match t.dropWhile isCaseIgnorable with
  | c :: _ => isCased c
  | [] => false

/-- The lower case of a text that follows `before`, which is given in reverse. -/
def lowercaseAfter (before : Text) : Text → Text
  | [] => []
  | c :: t =>
    let lower :=
      if c = 'Σ' then [if startsCased before && !startsCased t then 'ς' else 'σ']
      else lowercaseChar c
    lower ++ lowercaseAfter (c :: before) t

/-- The lower case of a text. A capital sigma at the end of a word has a form of its own. -/
def Text.lowercase (t : Text) : Text := lowercaseAfter [] t

end TemplateProjection
