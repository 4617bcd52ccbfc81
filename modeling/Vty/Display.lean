import Vty.Channel
import Vty.Display.Command
import Vty.Notice

namespace Vty

structure Display where
  output : OutputChannel
  attached : Bool := true
  policy : Display.Policy

namespace Display

def mustEcho (d : Display) : Bool :=
  d.policy.mustEcho

def negotiated (d : Display) : Telnet.Features :=
  d.policy.negotiated

def written (d : Display) : Bytes :=
  d.output.written

def setFeature (d : Display) (feature : Telnet.Feature) (on : Bool) : Display :=
  { d with policy := { d.policy with negotiated := d.policy.negotiated.set feature on } }

def send (d : Display) (bytes : Bytes) : Display × List Notice :=
  if bytes = [] ∨ d.attached = false then (d, [])
  else
    match d.output.send bytes with
    | (.ok (), output) => ({ d with output }, [])
    | (.error reason, output) => ({ d with output }, [.writeFailed output.handle reason])

def present (d : Display) : List Command → Display × List Notice
  | [] => (d, [])
  | command :: rest =>
    let (d, first) := d.send (command.encode d.policy)
    let (d, more) := d.present rest
    (d, first ++ more)

end Display

end Vty
