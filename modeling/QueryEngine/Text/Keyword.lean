/-!
# Keywords without regard to case

Type names and function names are words of capital ASCII letters, accepted in any mixture of cases.
Case is the one of Unicode's full mapping to capitals: besides the small ASCII letters, a few other
characters have capitals that are ASCII letters only, the dotless i, the long s, the sharp s and the
Latin ligatures, and a name may be spelled with them. Every other character has a capital outside
ASCII, so that a name spelled with it is no keyword and the character can stay as it is.
-/

namespace QueryEngine.Text

/-- The capital ASCII letters that a character stands for, or the character itself. -/
def capitals : Char → List Char
  | '\u0131' => ['I']
  | '\u017f' => ['S']
  | '\u00df' => ['S', 'S']
  | '\ufb00' => ['F', 'F']
  | '\ufb01' => ['F', 'I']
  | '\ufb02' => ['F', 'L']
  | '\ufb03' => ['F', 'F', 'I']
  | '\ufb04' => ['F', 'F', 'L']
  | '\ufb05' => ['S', 'T']
  | '\ufb06' => ['S', 'T']
  | c => [c.toUpper]

/-- A word in capitals, the form in which keywords are looked up. -/
def keyword (s : String) : String :=
  String.ofList (s.toList.flatMap capitals)

end QueryEngine.Text
