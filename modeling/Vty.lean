import Vty.Address
import Vty.Arguments
import Vty.Channel
import Vty.Commands
import Vty.Config
import Vty.Config.Text
import Vty.Console
import Vty.Display
import Vty.Display.Command
import Vty.Editor
import Vty.Files
import Vty.Grammar.Describe
import Vty.Grammar.Key
import Vty.Grammar.Node
import Vty.Grammar.Parse
import Vty.History
import Vty.Host
import Vty.Input.Event
import Vty.Input.Queue
import Vty.Launch
import Vty.Main
import Vty.Notice
import Vty.Poll
import Vty.Proofs.Arguments
import Vty.Proofs.Display.Editing
import Vty.Proofs.Display.Line
import Vty.Proofs.Display.Margin
import Vty.Proofs.Display.Output
import Vty.Proofs.Display.Terminal
import Vty.Proofs.Editor.Alphabet
import Vty.Proofs.Editor.Browsing
import Vty.Proofs.Editor.Journal
import Vty.Proofs.Editor.Refusal
import Vty.Proofs.Editor.Walk
import Vty.Proofs.Editor.Zipper
import Vty.Proofs.Grammar.Acceptance
import Vty.Proofs.Grammar.Ambiguity
import Vty.Proofs.Grammar.Choice
import Vty.Proofs.Grammar.Construction
import Vty.Proofs.Grammar.Derivation
import Vty.Proofs.Grammar.HelpLines
import Vty.Proofs.Grammar.Listing
import Vty.Proofs.Grammar.Modes
import Vty.Proofs.Grammar.Normalized
import Vty.Proofs.Grammar.Reach
import Vty.Proofs.Grammar.Spelling
import Vty.Proofs.Grammar.Stability
import Vty.Proofs.Grammar.Tree
import Vty.Proofs.Host.Readiness
import Vty.Proofs.Host.Registries
import Vty.Proofs.Host.Turns
import Vty.Proofs.Input.Enter
import Vty.Proofs.Input.Storage
import Vty.Proofs.Input.Stream
import Vty.Proofs.Input.Tokenization
import Vty.Proofs.Session.Alike
import Vty.Proofs.Session.Alphabet
import Vty.Proofs.Session.Attendance
import Vty.Proofs.Session.Backlog
import Vty.Proofs.Session.Delivery
import Vty.Proofs.Session.Endurance
import Vty.Proofs.Session.Exclusion
import Vty.Proofs.Session.Harmless
import Vty.Proofs.Session.Help
import Vty.Proofs.Session.Hushed
import Vty.Proofs.Session.Intake
import Vty.Proofs.Session.Lifecycle
import Vty.Proofs.Session.LineFeeds
import Vty.Proofs.Session.Machine
import Vty.Proofs.Session.Negotiation
import Vty.Proofs.Session.Paired
import Vty.Proofs.Session.Reading
import Vty.Proofs.Session.Redisplay
import Vty.Proofs.Session.Screen
import Vty.Proofs.Session.Silence
import Vty.Proofs.Session.Speech
import Vty.Proofs.Session.Steps
import Vty.Proofs.Session.Terminators
import Vty.Proofs.Session.Transparency
import Vty.Proofs.Session.Twins
import Vty.Proofs.Session.Voice
import Vty.Proofs.Session.Within
import Vty.Proofs.Table
import Vty.Proofs.Text.Tokens
import Vty.Session
import Vty.Session.Interpreter
import Vty.Session.Program
import Vty.Session.Script
import Vty.Table
import Vty.Telnet
import Vty.Text.Quoted
import Vty.Text.Space
import Vty.Text.Utf8
import Vty.Toml.Document
import Vty.Toml.Moment
import Vty.Toml.Section
import Vty.Toml.Text
import Vty.Toml.Value
