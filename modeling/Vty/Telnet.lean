import Vty.Text.Utf8

namespace Vty.Telnet

inductive Verb where
  | will
  | wont
  /-- DO: asks this side to perform the option. -/
  | enable
  /-- DONT: asks this side to stop performing the option. -/
  | disable
  | other (code : UInt8)
  deriving DecidableEq, Repr

def iac : UInt8 := 255
def willCode : UInt8 := 251

def Verb.ofCode (code : UInt8) : Verb :=
  if code = 251 then .will
  else if code = 252 then .wont
  else if code = 253 then .enable
  else if code = 254 then .disable
  else .other code

def Verb.text : Verb → String
  | .will => "Will"
  | .wont => "Wont"
  | .enable => "Do"
  | .disable => "Dont"
  | .other code => s!"Other({code.toNat})"

inductive Feature where
  | echo
  | suppressGoAhead
  deriving DecidableEq, Repr

namespace Feature

def code : Feature → UInt8
  | .echo => 1
  | .suppressGoAhead => 3

def ofCode? (code : UInt8) : Option Feature :=
  if code = 1 then some .echo
  else if code = 3 then some .suppressGoAhead
  else none

theorem ofCode?_eq_some_iff {c : UInt8} {f : Feature} : ofCode? c = some f ↔ c = f.code := by
  cases f <;> simp [ofCode?, code]; grind

def flag : Feature → Nat
  | .echo => 1
  | .suppressGoAhead => 2

def label : Feature → String
  | .echo => "ECHO"
  | .suppressGoAhead => "SUPPRESS_GO_AHEAD"

def text (f : Feature) : String :=
  s!"TelnetOptions({f.label})"

end Feature

structure Features where
  echo : Bool := false
  suppressGoAhead : Bool := false
  deriving DecidableEq, Repr

namespace Features

def contains (fs : Features) : Feature → Bool
  | .echo => fs.echo
  | .suppressGoAhead => fs.suppressGoAhead

def set (fs : Features) (f : Feature) (on : Bool) : Features :=
  match f with
  | .echo => { fs with echo := on }
  | .suppressGoAhead => { fs with suppressGoAhead := on }

theorem contains_set (fs : Features) (f g : Feature) (on : Bool) :
    (fs.set f on).contains g = if f = g then on else fs.contains g := by
  cases f <;> cases g <;> rfl

def members (fs : Features) : List Feature :=
  [.echo, .suppressGoAhead].filter fs.contains

def flags (fs : Features) : Nat :=
  fs.members.foldr (fun f n => f.flag + n) 0

def text (fs : Features) : String :=
  let labels := fs.members.map Feature.label
  let inside := if labels.isEmpty then "0x0" else " | ".intercalate labels
  s!"TelnetOptions({inside})"

end Features

def will (option : UInt8) : Bytes :=
  [iac, willCode, option]

end Vty.Telnet
