import Transducer.CharClass.Json
import Transducer.CharClass.Runs
import Transducer.Main
import Transducer.Word.Order
import Transducer.Word.Sample
import Transducer.Word.Text
import Transducer.Proofs.CharClass.Algebra
import Transducer.Proofs.Parse.Moves
import Transducer.Proofs.Returns
import Transducer.Proofs.Token.Lexed
import Transducer.Proofs.Parse.Balance
import Transducer.Proofs.Parse.Agenda
import Transducer.Proofs.Parse.Lossless
import Transducer.Proofs.Program.Totality
import Transducer.Proofs.Parse.Exact
import Transducer.Proofs.Parse.Acceptance
import Transducer.Proofs.Program.Denotation
import Transducer.Proofs.Ast.Whole
import Transducer.Proofs.Program.Hoisting
import Transducer.Proofs.Program.Preservation
import Transducer.Proofs.Parse.Forming
import Transducer.Proofs.Ast.Reading
import Transducer.Proofs.CharClass.Combination
import Transducer.Proofs.Re.Lexemes
import Transducer.Proofs.Re.Sharing
import Transducer.Proofs.CharClass.Runs
import Transducer.Proofs.Literal.Decoding
import Transducer.Proofs.Re.Scanning
import Transducer.Proofs.Re.Normal
import Transducer.Proofs.Agree
import Transducer.Proofs.Tree.Bare
import Transducer.Proofs.Parse.Layout
import Transducer.Proofs.Ast.Layout
import Transducer.Proofs.Program.Layout
import Transducer.Proofs.Parse.Simulation
import Transducer.Proofs.Parse.Events
import Transducer.Proofs.Parse.Limiting
import Transducer.Proofs.Token.Splitting
import Transducer.Proofs.Parse.Confinement
import Transducer.Proofs.Program.Completeness
import Transducer.Proofs.Ast.Places
import Transducer.Proofs.Program.Accounting
import Transducer.Proofs.CharClass.Extensionality
import Transducer.Proofs.Token.Tiling
import Transducer.Proofs.Program.Journal
import Transducer.Proofs.Program.Acyclicity
import Transducer.Proofs.Program.Freshness
import Transducer.Proofs.Parse.Reporting
import Transducer.Proofs.Parse.Pointing
import Transducer.Proofs.Parse.Positions
import Transducer.Proofs.Literal.Malformed
import Transducer.Proofs.Program.Pointing
import Transducer.Proofs.Program.Incomplete
import Transducer.Proofs.Diagnostic.Cascade
import Transducer.Proofs.Diagnostic.Drawing
import Transducer.Proofs.Command.Agreement
import Transducer.Proofs.Literal.Grammar
import Transducer.Proofs.Diagnostic.Stability
import Transducer.Proofs.Diagnostic.Counts
import Transducer.Proofs.Re.Rendering
import Transducer.Proofs.Program.Repetition
import Transducer.Proofs.Program.Classes
import Transducer.Proofs.Token.LongestMatch
import Transducer.Proofs.Token.Contents
import Transducer.Proofs.Parse.Semicolons
import Transducer.Proofs.CharClass.Partition
import Transducer.Proofs.Literal.Forms
import Transducer.Proofs.Parse.Tightness
import Transducer.Proofs.Tree.Ranges
import Transducer.Proofs.Word.Views
import Transducer.Proofs.Word.Comparison
import Transducer.Proofs.Token.Unterminated
import Transducer.Proofs.Token.Kinds
import Transducer.Proofs.Json.Reading
import Transducer.Proofs.Word.Sorting
import Transducer.Proofs.Word.Sampling
import Transducer.Proofs.CharClass.Intervals
import Transducer.Proofs.Json.Encodings
import Transducer.Proofs.Word.Texts
