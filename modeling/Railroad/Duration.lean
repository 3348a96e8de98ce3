set_option autoImplicit false

/-!
# Durations

A duration is a number of seconds and a fraction of a second in nanoseconds. Its text uses the
largest unit that gives a number of at least one, with exactly the decimal places that are needed.
-/

namespace Railroad

/-- Nanoseconds in a second. -/
def nanosPerSecond : Nat := 1000000000

/-- One more than the greatest number of 64 bits, which bounds the seconds of a duration. -/
def secondsBound : Nat := 18446744073709551616

/-- So many whole seconds and nanoseconds. -/
structure Duration where
  seconds : Nat
  nanos : Nat
  nanos_lt : nanos < nanosPerSecond := by decide
  deriving DecidableEq, Repr

namespace Duration

instance : Inhabited Duration := ⟨⟨0, 0, by decide⟩⟩

/-- So many whole seconds. -/
def ofSeconds (seconds : Nat) : Duration := ⟨seconds, 0, by decide⟩

/-- The duration of so many seconds and nanoseconds, of which full seconds are carried over, unless
it is too long. -/
def ofParts? (seconds nanos : Nat) : Option Duration :=
  if seconds + nanos / nanosPerSecond < secondsBound then
    some ⟨seconds + nanos / nanosPerSecond, nanos % nanosPerSecond,
      Nat.mod_lt _ (by decide)⟩
  else none

/-- A number with a fraction of `fraction / 10 ^ places`, without trailing zeros. -/
def decimal (whole fraction places : Nat) : String :=
  let digits := Nat.toDigits 10 fraction
  let padded := List.replicate (places - digits.length) '0' ++ digits
  let needed := (padded.reverse.dropWhile (· == '0')).reverse
  if needed.isEmpty then toString whole
  else toString whole ++ "." ++ String.ofList needed

/-- The text of a duration in seconds, milliseconds, microseconds or nanoseconds. -/
def text (duration : Duration) : String :=
  if 0 < duration.seconds then decimal duration.seconds duration.nanos 9 ++ "s"
  else if 1000000 ≤ duration.nanos then
    decimal (duration.nanos / 1000000) (duration.nanos % 1000000) 6 ++ "ms"
  else if 1000 ≤ duration.nanos then
    decimal (duration.nanos / 1000) (duration.nanos % 1000) 3 ++ "µs"
  else toString duration.nanos ++ "ns"

end Duration

end Railroad
