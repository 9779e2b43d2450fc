/-!
# Instants and durations

Times are whole milliseconds, held as integers. A clock reading is a signed 64-bit word. A
difference of two readings may not fit such a word. The log of events stops it at the end of the
range; the limits on firings and the queue of minor actions let it wrap around. Both are the exact
difference where that fits. The ages of sensor values and the days in use are taken as exact
differences, so they are meant for readings that lie within one range of a word.
-/
namespace ContextAdvisor

/-- Milliseconds since the epoch. -/
abbrev Instant := Int

/-- A number of milliseconds, possibly negative. -/
abbrev Duration := Int

namespace Duration

def second : Duration := 1000

def minute : Duration := 60 * second

def hour : Duration := 60 * minute

def day : Duration := 24 * hour

end Duration

/-- The least signed 64-bit word. -/
def leastWord : Int := -9223372036854775808

/-- The greatest signed 64-bit word. -/
def greatestWord : Int := 9223372036854775807

/-- Is the number a signed 64-bit word? -/
def IsWord (t : Int) : Prop := leastWord ≤ t ∧ t ≤ greatestWord

instance decidableIsWord (t : Int) : Decidable (IsWord t) := inferInstanceAs (Decidable (_ ∧ _))

/-- The difference of two clock readings, stopped at the ends of the signed 64-bit range. -/
def wordDifference (a b : Int) : Int := max leastWord (min greatestWord (a - b))

/-- The difference of two clock readings, wrapped around at the ends of the signed 64-bit range. -/
def wrappedDifference (a b : Int) : Int := (a - b).bmod 18446744073709551616

/-- A difference that is not below the words does not grow by wrapping around. -/
theorem wrappedDifference_le {a b : Int} (h : leastWord ≤ a - b) :
    wrappedDifference a b ≤ a - b := by
  unfold wrappedDifference leastWord Int.bmod at *
  dsimp only
  split <;> omega

/-- A difference that is not above the words does not shrink by wrapping around. -/
theorem le_wrappedDifference {a b : Int} (h : a - b ≤ greatestWord) :
    a - b ≤ wrappedDifference a b := by
  unfold wrappedDifference greatestWord Int.bmod at *
  dsimp only
  split <;> omega

/-- A difference that fits a word does not wrap around. -/
theorem wrappedDifference_eq {a b : Int} (h : IsWord (a - b)) : wrappedDifference a b = a - b :=
  Int.le_antisymm (wrappedDifference_le h.1) (le_wrappedDifference h.2)

end ContextAdvisor
