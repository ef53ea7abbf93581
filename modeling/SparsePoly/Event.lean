import SparsePoly.Interpolation
import SparsePoly.Poly.Render
import SparsePoly.Reading

/-!
# Events

What is worth a note while a text is read or samples are fitted. An event has a level and a wording;
which events occur, and in which order, follows from the input.
-/

namespace SparsePoly

/-- How much an event matters. -/
inductive Event.Level where
  /-- A step on the way. -/
  | trace
  /-- What is about to be computed. -/
  | debug
  /-- Something in the input is not as it should be. -/
  | warn
deriving DecidableEq, Repr

/-- Something that happened. -/
inductive Event where
  /-- A term was read, up to this place in the text. -/
  | termRead (term : Term Float) (stop : Nat)
  /-- A row of this many samples has a last abscissa without an ordinate. -/
  | oddSamples (count : Nat)
  /-- A polynomial of at most this degree is being fitted. -/
  | fitting (degree : Nat)
  /-- A Vandermonde matrix over this many nodes is being set up. -/
  | matrix (nodes : Nat)
  /-- The determinant of the matrix came out as zero, as it should if two abscissas coincide. -/
  | coincidentNodes

namespace Event

/-- The name of a level. -/
def Level.name : Level → String
  | trace => "TRACE"
  | debug => "DEBUG"
  | warn => "WARN"

/-- The level of an event. -/
def level : Event → Level
  | termRead .. => .trace
  | oddSamples _ => .warn
  | fitting _ => .debug
  | matrix _ => .debug
  | coincidentNodes => .warn

/-- The wording of an event. -/
def message : Event → String
  | termRead t stop => s!"term {t.typeset} ending at {stop}"
  | oddSamples n => s!"Odd number of regression values ({n}), ignoring the last one"
  | fitting d => s!"Fitting degree {d} polynomial"
  | matrix n => s!"Vandermonde matrix over {n} nodes"
  | coincidentNodes => "Regression x-values are not distinct, result will not be finite"

/-- The record of an event: its level and its wording. -/
def record (e : Event) : String := e.level.name ++ " " ++ e.message

/-- The events of reading a text, up to its first fault. -/
def ofText (s : String) : List Event :=
  ((Reading.ofText s).stops (Text.normalize s).length).map fun (t, stop) => termRead t stop

/-- The event of setting up a Vandermonde matrix. -/
def ofMatrix (v : Vandermonde Float) : List Event := [matrix v.size]

/-- The events of fitting a polynomial to points. -/
def ofPoints (points : List (Float × Float)) : List Event :=
  let v := Vandermonde.ofPoints points
  fitting (points.length - 1) :: ofMatrix v ++ if v.isInvertible then [] else [coincidentNodes]

/-- The events of fitting a polynomial to a row of samples. -/
def ofSamples (samples : List Float) : List Event :=
  (if samples.length % 2 = 0 then [] else [oddSamples samples.length]) ++
    ofPoints (samplePairs samples)

end Event

end SparsePoly
