import Vty.Session.Program

namespace Vty

namespace Text

def alignRight (width : Nat) (text : String) : String :=
  String.ofList (List.replicate (width - text.length) ' ') ++ text

def alignLeft (width : Nat) (text : String) : String :=
  text ++ String.ofList (List.replicate (width - text.length) ' ')

example : alignRight 4 "12" = "  12" ∧ alignLeft 5 "#1" = "#1   " := by decide

end Text

structure Daemon.Known where
  connection : Connection
  peer : String
  deriving DecidableEq, Repr

structure Daemon where
  uptime : Nat := 0
  sessions : Table Nat Daemon.Known := []
  deriving DecidableEq, Repr

namespace Daemon

def version : String :=
  "rift-cli 0.3.0"

def sessionOpened (d : Daemon) (id : Nat) (connection : Connection) (peer : String) : Daemon :=
  { d with sessions := Table.insert id ⟨connection, peer⟩ d.sessions }

def sessionClosed (d : Daemon) (id : Nat) : Daemon :=
  { d with sessions := Table.erase id d.sessions }

def kindText : Connection → String
  | .terminal => "local"
  | .network => "telnet"

def idText (id : Nat) : String :=
  s!"#{id}"

def sessionRow (self id : Nat) (known : Known) : String :=
  let marker := if id = self then "*" else " "
  " ".intercalate
    [marker, Text.alignLeft 5 (idText id), Text.alignLeft 7 (kindText known.connection), known.peer]

def historyRow (index : Nat) (line : Bytes) : String :=
  Text.alignRight 4 (toString (index + 1)) ++ "  " ++ Text.ofUtf8Lossy line

def showVersion : Action Daemon := fun d _ _ =>
  .prints [version, s!"Uptime: {d.uptime}s"] (.done d)

def showSessions : Action Daemon := fun d v _ =>
  .prints (d.sessions.map fun entry => sessionRow v.id entry.1 entry.2) (.done d)

def showHistory : Action Daemon := fun d v _ =>
  .prints (v.editor.history.entries.mapIdx historyRow) (.done d)

def showOptions : Action Daemon := fun d v _ =>
  let echo := if v.mustEcho then "on" else "off"
  .prints
    [s!"Connection: {kindText v.connection}", s!"Echo: {echo}", s!"Negotiated: {v.negotiated.text}"]
    (.done d)

def setName : Action Daemon := fun d _ parameters =>
  match Table.find? "name" parameters with
  | none => .finish d (.error (.because ["no name given"]))
  | some name => .requests [.print s!"Name set to {name}", .setName name] (.done d)

def echo : Action Daemon := fun d _ parameters =>
  match Table.find? "text" parameters with
  | none => .finish d (.error (.because ["no text given"]))
  | some text => .prints [text] (.done d)

def exit : Action Daemon := fun d _ _ =>
  .requests [.close] (.done d)

def clearHistory : Action Daemon := fun d _ _ =>
  .requests [.history .clear, .print "History cleared"] (.done d)

open Grammar (Node)

def branch (entries : List (String × Node (Action Daemon))) : Node (Action Daemon) :=
  .ofList (entries.map fun entry => (.ofText entry.1, entry.2))

def grammar : Node (Action Daemon) :=
  branch
    [("show", branch
        [("version", .action showVersion), ("sessions", .action showSessions),
          ("history", .action showHistory), ("options", .action showOptions)]),
      ("set", branch [("name", branch [("$name", .action setName)])]),
      ("echo", branch [("$text", .action echo)]),
      ("exit", .action exit),
      ("clear", branch [("history", .action clearHistory)])]

end Daemon

end Vty
