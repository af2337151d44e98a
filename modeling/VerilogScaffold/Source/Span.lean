import VerilogScaffold.Text.Offset

/-!
# Spans

A span names a stretch of a source by two byte offsets. Offsets are 32-bit words, so every span of a
source shorter than four gigabytes is exact, and the span of two greatest words is free to mean
"no place at all".
-/

namespace VerilogScaffold

/-- A stretch of source text, from byte `start` up to but not including byte `stop`. -/
structure Span where
  start : UInt32
  stop : UInt32
  deriving DecidableEq, Inhabited

namespace Span

/-- The span that stands for no place in particular. -/
def dummy : Span := ⟨0xFFFFFFFF, 0xFFFFFFFF⟩

/-- The span between two offsets of a source. -/
def ofOffsets (start stop : Nat) : Span := ⟨.ofNat start, .ofNat stop⟩

/-- The smallest span that covers both. -/
def merge (a b : Span) : Span := ⟨min a.start b.start, max a.stop b.stop⟩

/-- The number of bytes covered; a span that ends before it starts has none to give. -/
def length? (s : Span) : Option Nat :=
  if s.start ≤ s.stop then some (s.stop.toNat - s.start.toNat) else none

def isEmpty (s : Span) : Bool := s.start == s.stop

def isDummy (s : Span) : Bool := s == dummy

/-- The text a span covers, if it lies within the source and cuts no character in two. -/
def text? (s : Span) (source : String) : Option String :=
  (Text.slice? s.start.toNat s.stop.toNat source.toList).map String.ofList

end Span

end VerilogScaffold
