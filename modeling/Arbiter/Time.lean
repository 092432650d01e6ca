namespace Arbiter

structure Duration where
  nanos : Nat
  deriving DecidableEq, Repr

namespace Duration

def nanosPerSecond : Nat := 1000000000

def ofParts (seconds nanos : Nat) : Duration := ⟨seconds * nanosPerSecond + nanos⟩

def ofSeconds (seconds : Nat) : Duration := ofParts seconds 0

def isZero (d : Duration) : Bool := d.nanos == 0

def parts (d : Duration) : Nat × Nat := (d.nanos / nanosPerSecond, d.nanos % nanosPerSecond)

theorem parts_ofParts {seconds nanos : Nat} (h : nanos < nanosPerSecond) :
    (ofParts seconds nanos).parts = (seconds, nanos) := by
  simp only [parts, ofParts, nanosPerSecond] at *
  ext <;> simp <;> omega

end Duration

/-- The first time that is no instant, two to the 63 seconds after the origin. -/
def Instant.limit : Nat := 9223372036854775808 * Duration.nanosPerSecond

structure Instant where
  nanos : Nat
  nanos_lt : nanos < Instant.limit
  deriving DecidableEq, Repr

namespace Instant

def origin : Instant := ⟨0, by decide⟩

instance : LT Instant := ⟨fun a b => a.nanos < b.nanos⟩

instance (a b : Instant) : Decidable (a < b) := inferInstanceAs (Decidable (a.nanos < b.nanos))

def add? (t : Instant) (d : Duration) : Option Instant :=
  if h : t.nanos + d.nanos < limit then some ⟨t.nanos + d.nanos, h⟩ else none

theorem lt_def {a b : Instant} : a < b ↔ a.nanos < b.nanos := Iff.rfl

theorem add?_eq_some_iff {t u : Instant} {d : Duration} :
    t.add? d = some u ↔ u.nanos = t.nanos + d.nanos := by
  obtain ⟨n, h⟩ := u
  simp only [add?]
  split
  · simp [eq_comm]
  · simp; omega

theorem add?_eq_none_iff {t : Instant} {d : Duration} :
    t.add? d = none ↔ limit ≤ t.nanos + d.nanos := by
  simp [add?]

end Instant

inductive Clock where
  | system
  | manual
  deriving DecidableEq, Repr

namespace Clock

/-- The time a clock shows while the manual clock shows `manual`. The system clock is read as
standing still: no run takes long beside the times to live it is used with. -/
def read (manual : Instant) : Clock → Instant
  | .system => .origin
  | .manual => manual

def name : Clock → String
  | .system => "SystemClock"
  | .manual => "TestClock"

end Clock

end Arbiter
