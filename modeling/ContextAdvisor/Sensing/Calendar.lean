import ContextAdvisor.Dictionary
import ContextAdvisor.Time

/-!
# Civil time

The hour, minute and weekday of an instant, at a fixed distance from universal time. Instants beyond
the years that a calendar covers and offsets of a day or more have no civil time.
-/
namespace ContextAdvisor.Calendar

/-- The first instant of the calendar. -/
def first : Instant := -8334601228800000

/-- The last instant of the calendar. -/
def last : Instant := 8210266876799999

/-- Universal time shifted by an offset in minutes; no offset means universal time. -/
def localTime? (offsetMinutes : Option Int) (now : Instant) : Option Instant :=
  let offset := offsetMinutes.getD 0 * Duration.minute
  if first ≤ now ∧ now ≤ last ∧ -Duration.day < offset ∧ offset < Duration.day then
    some (now + offset)
  else none

/-- The hour of the day, from 0 to 23. -/
def hour (time : Instant) : Nat := (time % Duration.day / Duration.hour).toNat

/-- The minute of the hour, from 0 to 59. -/
def minute (time : Instant) : Nat := (time % Duration.hour / Duration.minute).toNat

/-- The day of the week, from 0 for Sunday to 6. The epoch was a Thursday. -/
def weekday (time : Instant) : Nat := ((time / Duration.day + 4) % 7).toNat

/-- Saturday or Sunday. -/
def isWeekend (weekday : Nat) : Bool := weekday = 0 || weekday = 6

/-- The part of the day. -/
def partOfDay (hour : Nat) : String :=
  if 5 ≤ hour ∧ hour ≤ 11 then "morning"
  else if 12 ≤ hour ∧ hour ≤ 16 then "afternoon"
  else if 17 ≤ hour ∧ hour ≤ 20 then "evening"
  else "night"

/-- What a context says about a civil time. -/
def fields (time : Instant) : List (String × String) :=
  [("hour", toString (hour time)), ("minute", toString (minute time)),
    ("timeOfDay", partOfDay (hour time)), ("dayOfWeek", toString (weekday time)),
    ("isWeekend", if isWeekend (weekday time) then "true" else "false")]

end ContextAdvisor.Calendar
