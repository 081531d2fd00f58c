import QueryEngine.Histogram.Integer

/-!
# Histograms of texts

A text enters a histogram under a key, the number that its first four bytes write in base 256. Keys
follow the order of the texts, so that a histogram of keys answers comparisons of texts; texts that
begin alike share a key. Keys end at that of "zzzz", which stands for everything after it.

A key says nothing of what occurs inside a text, and LIKE is estimated to hold for all.
-/

namespace QueryEngine

/-- The number that the first bytes of a list write in base 256, as if zeros followed the list. -/
def leadingNumber : Nat → List UInt8 → Nat
  | 0, _ | _ + 1, [] => 0
  | n + 1, b :: rest => b.toNat * 256 ^ n + leadingNumber n rest

/-- The number that the first four bytes of a text write. -/
def textKey (s : String) : Nat :=
  leadingNumber 4 (Text.bytes s)

/-- The largest key in use. -/
def lastKey : Nat :=
  textKey "zzzz"

/-- The key under which a text is counted. -/
def clampedKey (s : String) : Int64 :=
  Int64.ofNat (Nat.min (textKey s) lastKey)

/-- Counts of texts by their keys. -/
structure TextHistogram where
  keys : IntHistogram
deriving DecidableEq

namespace TextHistogram

/-- The histogram with a number of buckets over all keys, with nothing counted. -/
def ofBuckets (buckets : Nat) : Except QueryError TextHistogram :=
  (IntHistogram.ofRange buckets (Int64.ofNat (textKey "")) (Int64.ofNat lastKey)).map .mk

def total (h : TextHistogram) : Nat :=
  h.keys.total

def add (h : TextHistogram) (s : String) : Except QueryError TextHistogram :=
  (h.keys.add (clampedKey s)).map .mk

def feed (h : TextHistogram) (texts : List String) :
    List (Except QueryError Unit) × TextHistogram :=
  let (answers, keys) := h.keys.feed (texts.map clampedKey)
  (answers, ⟨keys⟩)

/-- The estimated fraction of texts that a comparison with a given one holds for. -/
def estimate (F : Type) [Fractional F] (h : TextHistogram) (op : Comparison) (s : String) : F :=
  if op = .like then
    if h.total = 0 then Fractional.ofInt 0 else Fractional.ofInt 1
  else h.keys.estimate F op (clampedKey s)

end TextHistogram

end QueryEngine
