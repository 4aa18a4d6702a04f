import MessageBinder.Main
import MessageBinder.Tree.Same
import MessageBinder.Proofs.Scope.Agreement
import MessageBinder.Proofs.Draft.Meaning
import MessageBinder.Proofs.Draft.Repetition
import MessageBinder.Proofs.Draft.Initialization
import MessageBinder.Proofs.Draft.Interface
import MessageBinder.Proofs.Printing.RoundTrip
import MessageBinder.Proofs.Draft.Frame
import MessageBinder.Proofs.CommandLine.Storing
import MessageBinder.Proofs.CommandLine.Isolation
import MessageBinder.Proofs.Automaton.Acceptance
import MessageBinder.Proofs.Draft.Readback
import MessageBinder.Proofs.Draft.Free
import MessageBinder.Proofs.Scope.Scoping
import MessageBinder.Proofs.CommandLine.Clashes
import MessageBinder.Proofs.Draft.Reexports
import MessageBinder.Proofs.Json.RoundTrip
import MessageBinder.Proofs.Record.Lookup
import MessageBinder.Proofs.CommandLine.Reporting
import MessageBinder.Proofs.Draft.Filename
import MessageBinder.Proofs.CommandLine.Relocation
import MessageBinder.Proofs.Token.Lockstep
import MessageBinder.Proofs.Grammar.LineBreaks
import MessageBinder.Proofs.Grammar.Semicolons
import MessageBinder.Proofs.Token.Conservation
import MessageBinder.Proofs.Token.Escapes
import MessageBinder.Proofs.Grammar.Unreadable
import MessageBinder.Proofs.Printing.Gluing
import MessageBinder.Proofs.CommandLine.Spellings
import MessageBinder.Proofs.Draft.Closing
import MessageBinder.Proofs.Locale.Discovery
import MessageBinder.Proofs.Locale.Naming
import MessageBinder.Proofs.CommandLine.Beside
import MessageBinder.Proofs.Catalogue.LineEnds
import MessageBinder.Proofs.Scope.Drawing
import MessageBinder.Proofs.Draft.Interleaving
import MessageBinder.Proofs.Draft.Anchors
import MessageBinder.Proofs.Draft.Ordering
import MessageBinder.Proofs.Token.Quoted
import MessageBinder.Proofs.Catalogue.Dangling
import MessageBinder.Proofs.CommandLine.Extensions
import MessageBinder.Proofs.Token.Places
import MessageBinder.Proofs.Grammar.Parts
import MessageBinder.Proofs.Grammar.Places
