import ProgramTree.Document
import ProgramTree.Main
import ProgramTree.Proofs.Layout
import ProgramTree.Proofs.Arena.Packed
import ProgramTree.Proofs.Layout.Table
import ProgramTree.Proofs.Tree.Edits
import ProgramTree.Walk.Cancellable
import ProgramTree.Proofs.Tree.Branches
import ProgramTree.Proofs.Tree.Freeing
import ProgramTree.Proofs.Document
import ProgramTree.Proofs.Decimal.Rounding
import ProgramTree.Proofs.Grammar.Number
import ProgramTree.Proofs.Grammar.Derivation
import ProgramTree.Proofs.Grammar.Pieces
import ProgramTree.Proofs.Grammar.Complete
import ProgramTree.Proofs.Expression.RoundTrip
import ProgramTree.Proofs.Expression.Parsed
import ProgramTree.Proofs.Payload
import ProgramTree.Proofs.Source.Written
import ProgramTree.Proofs.Grammar.Names
import ProgramTree.Proofs.Grammar.Leaves
import ProgramTree.Proofs.Grammar.Bodies
import ProgramTree.Proofs.Source.Reading
import ProgramTree.Proofs.Source.Statements
import ProgramTree.Proofs.Source.Units
import ProgramTree.Proofs.Source.Placing
import ProgramTree.Proofs.Source.Drafts
import ProgramTree.Proofs.Source.RoundTrip
import ProgramTree.Proofs.Tree.Undo
import ProgramTree.Proofs.Undo
import ProgramTree.Proofs.Moves
import ProgramTree.Proofs.Walk.Calls
import ProgramTree.Proofs.Walk.Course
import ProgramTree.Proofs.Walk.Order
import ProgramTree.Proofs.Walk.Balance
import ProgramTree.Proofs.Tree.Identities
import ProgramTree.Proofs.Tree.Detached
import ProgramTree.Proofs.Walk.Nested
import ProgramTree.Proofs.Walk.Shared
import ProgramTree.Proofs.Walk.Reentrant
import ProgramTree.Proofs.Grammar.Language
import ProgramTree.Proofs.Grammar.Lexemes
import ProgramTree.Proofs.Grammar.Accepted
import ProgramTree.Proofs.Grammar.Sound
import ProgramTree.Proofs.Grammar.Unambiguous
import ProgramTree.Proofs.Grammar.Tokens
import ProgramTree.Proofs.Grammar.Blanks
import ProgramTree.Proofs.Source.MissingCatch
import ProgramTree.Proofs.Grammar.Program
import ProgramTree.Proofs.Grammar.ProgramSound
import ProgramTree.Proofs.Source.FirstFault
import ProgramTree.Proofs.Tree.Paths
import ProgramTree.Proofs.Lint.Faults
import ProgramTree.Proofs.Lint.Meaning
import ProgramTree.Proofs.CommandLine
import ProgramTree.Proofs.LineEnds.Expressions
import ProgramTree.Proofs.LineEnds.Statements
import ProgramTree.Proofs.LineEnds.Trees
import ProgramTree.Proofs.Relinking
import ProgramTree.Proofs.Delivery
import ProgramTree.Proofs.Json.Written
import ProgramTree.Proofs.Json.Reading
import ProgramTree.Proofs.Dump
import ProgramTree.Proofs.Tree.Accessors
import ProgramTree.Proofs.Navigation
import ProgramTree.Proofs.Locality
import ProgramTree.Proofs.Grammar.WholeNames
import ProgramTree.Proofs.Source.Causes
import ProgramTree.Proofs.Source.Numbered
import ProgramTree.Proofs.Outline.Lines
import ProgramTree.Proofs.Source.Page
import ProgramTree.Proofs.Expression.Parentheses
import ProgramTree.Proofs.Source.Places
import ProgramTree.Proofs.Outline.Source
import ProgramTree.Proofs.Walk.Mapped
import ProgramTree.Proofs.Settings
import ProgramTree.Proofs.Grammar.Unrolled
