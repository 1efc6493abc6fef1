import StoryDocs.Dialect
import StoryDocs.Proofs.Text.Buffer

/-!
# Positions that a parser reports

Any parser of scripts may stand behind the editors of this library.  It accepts a text or rejects it, and it tells
where things stand in a text that it accepts.  Its positions count bytes from an origin of its own, and the range of a
span in the text is found by taking the origin away.
-/

namespace StoryDocs
namespace Script
namespace Bytes

open Text Text.Buffer Markup.Bytes

/-- A parser of scripts: the position of the first byte of a text, and what is found in a text that is accepted. -/
structure Parser (α : Type) where
  origin : Nat
  parse? : Features → List Char → Option α

/-- The range of a span of positions in the text. -/
def byteRange (origin : Nat) (span : Span) : Checked Span := do
  let start ← minus span.start origin
  let stop ← minus span.stop origin
  return ⟨start, stop⟩

/-- The positions of a range in the text. -/
def positions (origin : Nat) (range : Span) : Span :=
  ⟨origin + range.start, origin + range.stop⟩

theorem byteRange_positions (origin : Nat) (range : Span) : byteRange origin (positions origin range) = .ok range := by
  rw [byteRange, positions, minus_add, ok_bind, minus_add]
  rfl

/-- The range in bytes of a span of characters. -/
def byteSpan (text : List Char) (s : Span) : Span :=
  ⟨byteIndex text s.start, byteIndex text s.stop⟩

/-- The range of a part of a text. -/
theorem byteSpan_append (u v w : List Char) :
    byteSpan (u ++ v ++ w) ⟨u.length, u.length + v.length⟩ = ⟨byteSize u, byteSize u + byteSize v⟩ := by
  have hstop := byteIndex_append (u ++ v) w
  have hstart := byteIndex_append u (v ++ w)
  rw [List.length_append, byteSize_append] at hstop
  rw [← List.append_assoc] at hstart
  rw [byteSpan, hstart, hstop]

end Bytes
end Script
end StoryDocs
