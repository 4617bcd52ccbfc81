import Vty.Telnet

namespace Vty

inductive Connection where
  | terminal
  | network
  deriving DecidableEq, Repr

namespace Display

inductive Command where
  | send (bytes : Bytes)
  | echo (bytes : Bytes)
  | control (bytes : Bytes)
  | left (columns : Nat)
  | right (columns : Nat)
  | erase
  | bell
  | will (option : UInt8)
  | text (message : String) (newline : Bool)
  deriving DecidableEq, Repr

/-- Decides what is shown: a terminal always echoes, a network peer once it has asked for it. -/
structure Policy where
  connection : Connection
  negotiated : Telnet.Features := {}
  gated : Bool := false
  deriving DecidableEq, Repr

namespace Policy

def mustEcho (p : Policy) : Bool :=
  match p.connection with
  | .terminal => true
  | .network => p.negotiated.echo

def sendsControl (p : Policy) : Bool :=
  !p.gated || p.mustEcho

end Policy

def columns (count : Nat) (letter : UInt8) : Bytes :=
  if count = 0 then [] else [0x1B, 0x5B] ++ Text.utf8 (toString count) ++ [letter]

def expandNewlines (bytes : Bytes) : Bytes :=
  bytes.flatMap fun b => if b = 0x0A then [0x0D, 0x0A] else [b]

/-- The bytes that carry out a command. Raw terminals need CR LF, so texts have it wherever input
is echoed. -/
def Command.encode (p : Policy) : Command → Bytes
  | .send bytes => bytes
  | .echo bytes => if p.mustEcho then bytes else []
  | .control bytes => if p.sendsControl then bytes else []
  | .left n => if p.sendsControl then columns n 0x44 else []
  | .right n => if p.sendsControl then columns n 0x43 else []
  | .erase => if p.sendsControl then [0x1B, 0x5B, 0x4B] else []
  | .bell => if p.sendsControl then [0x07] else []
  | .will option => Telnet.will option
  | .text message newline =>
    let bytes := Text.utf8 message ++ if newline then [0x0A] else []
    if p.mustEcho then expandNewlines bytes else bytes

end Display

end Vty
