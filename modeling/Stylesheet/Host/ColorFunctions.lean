import Stylesheet.Host

/-!
The functions that every sheet has unless the host withholds them: `rgb`, `lighten`, `darken`, `mix`
and `percentage`.
-/

namespace Stylesheet.ColorFunctions

/-- The argument at a position, absent where there is none. -/
def argument (arguments : List (Option Value)) (position : Nat) : Option Value :=
  (arguments[position]?).join

/-- Takes an argument as a plain number; `what` names it in the refusal. -/
def number (arguments : List (Option Value)) (position : Nat) (what : String) :
    Except String Float :=
  match argument arguments position with
  | some (.number x) => .ok x
  | some v => .error (String.join ["expected a number for ", what, ", got ", v.text])
  | none => .error (String.join ["missing ", what])

/-- Takes an argument as a colour, also from a keyword that reads as one. -/
def color (arguments : List (Option Value)) (position : Nat) : Except String Color :=
  match argument arguments position with
  | some (.color c) => .ok c
  | some (.ident name) =>
    match Color.ofHex? name with
    | some c => .ok c
    | none => .error (String.join ["expected a color, got ", name])
  | some v => .error (String.join ["expected a color, got ", v.text])
  | none => .error "missing color"

/-- The number itself where it is between zero and one, else the nearer end; NaN stays. -/
def clampToUnit (x : Float) : Float :=
  if x < 0.0 then 0.0 else if x > 1.0 then 1.0 else x

/-- Takes an argument as an amount between zero and one: a number, or a percentage. -/
def amount (arguments : List (Option Value)) (position : Nat) : Except String Float :=
  match argument arguments position with
  | some (.number x) => .ok (clampToUnit x)
  | some (.dimension x "%") => .ok (clampToUnit (x / 100.0))
  | some v => .error (String.join ["expected an amount, got ", v.text])
  | none => .error "missing amount"

def rgb : HostFunction where
  name := "rgb"
  arity := 3
  run arguments := do
    let red ← number arguments 0 "red"
    let green ← number arguments 1 "green"
    let blue ← number arguments 2 "blue"
    return some (.color (.ofChannels red green blue))

/-- Moves a colour towards white by an amount. -/
def lighten : HostFunction where
  name := "lighten"
  arity := 2
  run arguments := do
    let c ← color arguments 0
    let t ← amount arguments 1
    return some (.color (c.map fun x => x + (255.0 - x) * t))

def darken : HostFunction where
  name := "darken"
  arity := 2
  run arguments := do
    let c ← color arguments 0
    let t ← amount arguments 1
    return some (.color (c.map fun x => x * (1.0 - t)))

/-- The colour half-way between two colours. -/
def mix : HostFunction where
  name := "mix"
  arity := 2
  run arguments := do
    let c ← color arguments 0
    let d ← color arguments 1
    let half (x y : UInt8) : Float := (x.toFloat + y.toFloat) / 2.0
    return some (.color (.ofChannels (half c.red d.red) (half c.green d.green) (half c.blue d.blue)))

def percentage : HostFunction where
  name := "percentage"
  arity := 1
  run arguments := do
    let x ← number arguments 0 "value"
    return some (.dimension (x * 100.0) "%")

def table : HostTable :=
  [rgb, lighten, darken, mix, percentage].foldl HostTable.provide {}

end Stylesheet.ColorFunctions
