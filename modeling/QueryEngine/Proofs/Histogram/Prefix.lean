import QueryEngine.Proofs.Histogram.Keys
import QueryEngine.Proofs.Histogram.Tally

/-!
# What a key tells

A key tells of a text its first four bytes, with zeros for those that a shorter text lacks, and
nothing else (`leadingNumber_eq_iff`). Two texts share a key if they begin alike, where a text that
ends is taken to go on with zeros, or if both come after the last key.

What a histogram of texts counts and what it estimates depend on keys alone. All keys are in its
range, so that it counts every text.
-/

namespace QueryEngine

/-! ## First bytes -/

/-- The first bytes of a list, filled up with zeros. -/
def firstBytes (n : Nat) (bytes : List UInt8) : List UInt8 :=
  (bytes ++ .replicate n 0).take n

theorem firstBytes_cons (n : Nat) (b : UInt8) (rest : List UInt8) :
    firstBytes (n + 1) (b :: rest) = b :: firstBytes n rest := by
  rw [firstBytes, List.cons_append, List.take_succ_cons, firstBytes, List.replicate_succ',
    ← List.append_assoc, List.take_append_of_le_length]
  rw [List.length_append, List.length_replicate]
  exact Nat.le_add_left n _

/-- The first byte and what follows it, of a list and of its number. -/
theorem exists_first (n : Nat) (bytes : List UInt8) :
    ∃ b rest, firstBytes (n + 1) bytes = b :: firstBytes n rest
      ∧ leadingNumber (n + 1) bytes = b.toNat * 256 ^ n + leadingNumber n rest := by
  match bytes with
  | [] => exact ⟨0, [], rfl, by simp⟩
  | b :: rest => exact ⟨b, rest, firstBytes_cons n b rest, leadingNumber_cons n b rest⟩

theorem leadingNumber_eq_iff {n : Nat} {l l' : List UInt8} :
    leadingNumber n l = leadingNumber n l' ↔ firstBytes n l = firstBytes n l' := by
  induction n generalizing l l' with
  | zero => simp [firstBytes]
  | succ n ih =>
    obtain ⟨b, rest, hbytes, hnumber⟩ := exists_first n l
    obtain ⟨b', rest', hbytes', hnumber'⟩ := exists_first n l'
    rw [hbytes, hbytes', hnumber, hnumber', List.cons.injEq, ← ih]
    -- The first byte is the quotient by the weight of its place.
    have hfirst : ∀ (c : UInt8) (bytes : List UInt8),
        (c.toNat * 256 ^ n + leadingNumber n bytes) / 256 ^ n = c.toNat := by
      intro c bytes
      rw [Nat.add_comm, Nat.add_mul_div_right _ _ (Nat.pow_pos (by decide)),
        Nat.div_eq_of_lt (leadingNumber_lt n bytes), Nat.zero_add]
    constructor
    · intro heq
      have hb : b = b' := by
        rw [← UInt8.toNat_inj, ← hfirst b rest, heq, hfirst]
      subst hb
      exact ⟨rfl, Nat.add_left_cancel heq⟩
    · rintro ⟨rfl, heq⟩
      rw [heq]

/-! ## Histograms of texts -/

namespace TextHistogram

variable {h : TextHistogram} {buckets : Nat}

theorem feed_eq (hnew : ofBuckets buckets = .ok h) (texts : List String) :
    (h.feed texts).1 = texts.map (fun _ ↦ .ok ()) ∧ (h.feed texts).2.total = texts.length := by
  obtain ⟨summarizes, -⟩ := summarizes_feed hnew texts
  obtain ⟨-, covers⟩ := summarizes_feed hnew []
  constructor
  · have hanswers : (h.feed texts).1 = (texts.map clampedKey).map h.keys.answer :=
      IntHistogram.feed_fst h.keys _
    rw [hanswers, List.map_map]
    exact List.map_congr_left fun s _ ↦ if_pos (covers s)
  · exact summarizes.counts.total_eq.trans (List.length_map _)

theorem estimate_eq_of_clampedKey_eq {F : Type} [Fractional F] {s t : String}
    (same : clampedKey s = clampedKey t) (h : TextHistogram) (op : Comparison) :
    h.estimate F op s = h.estimate F op t := by
  rw [estimate, estimate, same]

end TextHistogram

/-- **A text is known by its key.** Keys follow the byte order of texts, up to the last one, and the
key of a text, before it is cut off there, tells its first four bytes and nothing else. All keys are
in the range of a histogram of texts: it can be made with any number of buckets, never refuses a
text, and has counted as many as it was given. It cannot tell texts of one key apart. -/
theorem texts_known_by_keys :
    (∀ s t, Text.compareBytes s t ≠ .gt → clampedKey s ≤ clampedKey t)
      ∧ (∀ s t, textKey s = textKey t
        ↔ firstBytes 4 (Text.bytes s) = firstBytes 4 (Text.bytes t))
      ∧ (∀ s, Int64.ofNat (textKey "") ≤ clampedKey s
        ∧ clampedKey s ≤ Int64.ofNat (textKey "zzzz"))
      ∧ (∀ buckets, 0 < buckets → ∃ h, TextHistogram.ofBuckets buckets = .ok h
        ∧ ∀ texts, (h.feed texts).1 = texts.map (fun _ ↦ .ok ())
          ∧ (h.feed texts).2.total = texts.length)
      ∧ ∀ s t, clampedKey s = clampedKey t →
        ∀ (F : Type) [Fractional F] (h : TextHistogram) (op : Comparison),
          h.estimate F op s = h.estimate F op t := by
  refine ⟨fun _ _ ↦ clampedKey_mono, fun _ _ ↦ leadingNumber_eq_iff, clampedKey_bounds,
    fun buckets pos ↦ ?_, fun s t same F _ ↦ TextHistogram.estimate_eq_of_clampedKey_eq same⟩
  obtain ⟨h, hnew⟩ := TextHistogram.ofBuckets_eq_ok pos
  exact ⟨h, hnew, TextHistogram.feed_eq hnew⟩

/-- A character of two bytes that is cut in the middle: two texts of one key differ in their fifth
byte. A text with a zero byte at its end has the key of the text without it. -/
theorem texts_known_by_keys_cut :
    Text.compareBytes "abcé" "abcê" ≠ .gt ∧ clampedKey "abcé" ≤ clampedKey "abcê"
      ∧ textKey "abcé" = textKey "abcê" ∧ textKey "a" = textKey "a\x00"
      ∧ 0 < 3
      ∧ (∃ h, TextHistogram.ofBuckets 3 = .ok h
        ∧ (h.feed ["~~~", "zzzz", ""]).1 = [.ok (), .ok (), .ok ()]
        ∧ (h.feed ["~~~", "zzzz", ""]).2.total = 3)
      ∧ clampedKey "~~~" = clampedKey "zzzz"
      ∧ ∀ (h : TextHistogram) (op : Comparison),
        h.estimate ℚ op "~~~" = h.estimate ℚ op "zzzz" := by
  obtain ⟨hmono, hkey, -, hcounts, hestimate⟩ := texts_known_by_keys
  have horder : Text.compareBytes "abcé" "abcê" ≠ .gt := by decide
  have hlast : clampedKey "~~~" = clampedKey "zzzz" := by decide
  obtain ⟨h, hnew, hfeed⟩ := hcounts 3 (by decide)
  exact ⟨horder, hmono _ _ horder, (hkey _ _).mpr (by decide), (hkey _ _).mpr (by decide),
    by decide, ⟨h, hnew, hfeed ["~~~", "zzzz", ""]⟩, hlast, hestimate _ _ hlast ℚ⟩

end QueryEngine
