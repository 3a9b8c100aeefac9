/-!
# Counters

Counters over the files that a reader has read, and the time spent on them. Counters have 64
bits and wrap around.
-/

namespace Typings

-- ---------------------------------------------------------------------------
-- Time
-- ---------------------------------------------------------------------------

/-- A length of time. -/
structure Duration where
  nanos : Nat := 0
deriving Repr, DecidableEq, Inhabited

namespace Duration

instance : Add Duration := ⟨fun a b => ⟨a.nanos + b.nanos⟩⟩

def ofMillis (n : UInt64) : Duration := ⟨n.toNat * 1000000⟩

/-- Whole milliseconds, of which the lower 64 bits are kept. -/
def millis (d : Duration) : UInt64 := (d.nanos / 1000000).toUInt64

/-- Whether a length of time can be kept: its whole seconds have 64 bits. -/
def fits (d : Duration) : Bool := d.nanos / 1000000000 < UInt64.size

/-- The share of each of `count` equal parts, rounded down to nanoseconds. The number of parts is
taken modulo 2^32; no share exists when that leaves zero. -/
def share? (d : Duration) (count : UInt64) : Option Duration :=
  if count.toUInt32 = 0 then none else some ⟨d.nanos / count.toUInt32.toNat⟩

/-- The average over `count` files: no time at all over no files. -/
def average? (d : Duration) (count : UInt64) : Option Duration :=
  if count = 0 then some {} else d.share? count

end Duration

/-- The share of successes among attempts, 0 without attempts. -/
def successRate (succeeded attempted : UInt64) : Float :=
  if attempted = 0 then 0.0 else succeeded.toFloat / attempted.toFloat

-- ---------------------------------------------------------------------------
-- Counters
-- ---------------------------------------------------------------------------

structure Metrics where
  attempted : UInt64 := 0
  succeeded : UInt64 := 0
  failed : UInt64 := 0
  /-- Files that were read and declare no type. -/
  withoutTypes : UInt64 := 0
  time : Duration := {}
  types : UInt64 := 0
  methods : UInt64 := 0
deriving Repr, DecidableEq, Inhabited

namespace Metrics

/-- The sum of two sets of counters. -/
def merge (a b : Metrics) : Metrics where
  attempted := a.attempted + b.attempted
  succeeded := a.succeeded + b.succeeded
  failed := a.failed + b.failed
  withoutTypes := a.withoutTypes + b.withoutTypes
  time := a.time + b.time
  types := a.types + b.types
  methods := a.methods + b.methods

/-- The sum of two sets of counters, when its time can be kept. -/
def merge? (a b : Metrics) : Option Metrics :=
  if (a.merge b).time.fits then some (a.merge b) else none

def successRate (m : Metrics) : Float := Typings.successRate m.succeeded m.attempted

/-- Average time for a file that was read. -/
def averageTime? (m : Metrics) : Option Duration := m.time.average? m.succeeded

end Metrics

end Typings
