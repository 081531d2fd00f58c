/-!
# Text as bytes

A text is stored and compared as its UTF-8 bytes. Two texts are ordered by the first byte in which
they differ, and a text comes before every text that continues it.

`bytes` is the byte list that every other definition on text goes through: the comparison of values
and the key under which a text enters a histogram.
-/

namespace QueryEngine.Text

/-- The UTF-8 bytes of a text, in order. -/
def bytes (s : String) : List UInt8 :=
  s.toList.flatMap String.utf8EncodeChar

/-- The byte order of texts: the first differing byte decides, and an initial part comes first. -/
def compareBytes (a b : String) : Ordering :=
  compare (bytes a) (bytes b)

theorem compareBytes_self (a : String) : compareBytes a a = .eq := by
  show compare (bytes a) (bytes a) = .eq
  exact Std.ReflCmp.compare_self

end QueryEngine.Text
