import Vty.Config
import Vty.Toml.Document

namespace Vty.Config

open Toml (Value)

def text? : Value → Option String
  | .text text => some text
  | _ => none

def boolean? : Value → Option Bool
  | .boolean b => some b
  | _ => none

def count? : Value → Option Nat
  | .integer (.ofNat n) => some n
  | _ => none

def field {α : Type} (read : Value → Option α) (default : α) : Option Value → Option α
  | none => some default
  | some value => read value

def session? (value : Value) : Option Session.Options := do
  let base : Session.Options := {}
  match ← value.fields? ["history_limit", "read_chunk_size", "gate_control_sequences"] with
  | [limit, chunk, gate] =>
    some
      { historyLimit := ← field count? base.historyLimit limit
        readChunkSize := ← field count? base.readChunkSize chunk
        gateControlSequences := ← field boolean? base.gateControlSequences gate }
  | _ => none

def log? (value : Value) : Option LogConfig := do
  let base : LogConfig := {}
  match ← value.fields? ["level", "file"] with
  | [level, file] =>
    some
      { level := ← field text? base.level level
        file := ← field (fun v => (text? v).map some) base.file file }
  | _ => none

def ofValue? (value : Value) : Option Config := do
  let base : Config := {}
  match ← value.fields? ["name", "interactive", "listen", "session", "log"] with
  | [name, interactive, listen, session, log] =>
    some
      { name := ← field text? base.name name
        interactive := ← field boolean? base.interactive interactive
        listen := ← field (fun v => (text? v).map some) base.listen listen
        session := ← field session? base.session session
        log := ← field log? base.log log }
  | _ => none

def ofText? (text : String) : Option Config := do
  ofValue? (.table (← Toml.document? text))

end Vty.Config
