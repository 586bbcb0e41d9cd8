import Sprout.Builtin
import Sprout.Checked
import Sprout.Command
import Sprout.Compile
import Sprout.Constant
import Sprout.Diagnostic
import Sprout.Emission
import Sprout.Emission.Assignment
import Sprout.Emission.Block
import Sprout.Emission.Declaration
import Sprout.Emission.Program
import Sprout.Emission.Unpacking
import Sprout.Error
import Sprout.Expr
import Sprout.Expr.Parser
import Sprout.Fault
import Sprout.FileTree
import Sprout.Floating
import Sprout.Floating.Arithmetic
import Sprout.Floating.Decimal
import Sprout.Main
import Sprout.Malformed
import Sprout.Number
import Sprout.Operator
import Sprout.Primitive
import Sprout.Proofs.Arguments.Loops
import Sprout.Proofs.Arguments.Texts
import Sprout.Proofs.Arguments.Values
import Sprout.Proofs.Blocks.Headers
import Sprout.Proofs.Blocks.Nesting
import Sprout.Proofs.Blocks.Reading
import Sprout.Proofs.Blocks.Sentences
import Sprout.Proofs.Blocks.Structure
import Sprout.Proofs.Blocks.Texts
import Sprout.Proofs.Canonical
import Sprout.Proofs.Capture
import Sprout.Proofs.Constants
import Sprout.Proofs.Conversions
import Sprout.Proofs.Denial
import Sprout.Proofs.Directories
import Sprout.Proofs.Domains.Bytes
import Sprout.Proofs.Domains.Compiling
import Sprout.Proofs.Domains.Counting
import Sprout.Proofs.Domains.Crashes
import Sprout.Proofs.Domains.Depths
import Sprout.Proofs.Domains.Emitting
import Sprout.Proofs.Domains.Folding
import Sprout.Proofs.Domains.Grouping
import Sprout.Proofs.Domains.Headers
import Sprout.Proofs.Domains.Planning
import Sprout.Proofs.Domains.Scanning
import Sprout.Proofs.Domains.Slices
import Sprout.Proofs.Domains.Typing
import Sprout.Proofs.Effects.Lines
import Sprout.Proofs.Effects.Statements
import Sprout.Proofs.Effects.Texts
import Sprout.Proofs.Effects.Tokens
import Sprout.Proofs.Effects.Values
import Sprout.Proofs.Elements.Types
import Sprout.Proofs.Elements.Warnings
import Sprout.Proofs.Emission.Acceptance
import Sprout.Proofs.Emission.Announcements
import Sprout.Proofs.Emission.Contents
import Sprout.Proofs.Emission.InnerLines
import Sprout.Proofs.Emission.OneMain
import Sprout.Proofs.Emission.Steps
import Sprout.Proofs.Emission.Succession
import Sprout.Proofs.Emission.Symbols
import Sprout.Proofs.Files.Extensions
import Sprout.Proofs.Files.Saving
import Sprout.Proofs.Files.Texts
import Sprout.Proofs.Files.Walking
import Sprout.Proofs.Floating.Rounding
import Sprout.Proofs.Lexing
import Sprout.Proofs.Lexing.Comments
import Sprout.Proofs.Lexing.Cuts
import Sprout.Proofs.Lexing.Layout
import Sprout.Proofs.Lexing.Lexemes
import Sprout.Proofs.Lexing.Numerals
import Sprout.Proofs.Lexing.Quotes
import Sprout.Proofs.Lexing.Spacing
import Sprout.Proofs.Lexing.Tiling
import Sprout.Proofs.Literals
import Sprout.Proofs.Lossless
import Sprout.Proofs.Names.Declarations
import Sprout.Proofs.Names.Lines
import Sprout.Proofs.Names.Program
import Sprout.Proofs.Names.Scopes
import Sprout.Proofs.Names.Values
import Sprout.Proofs.Names.Words
import Sprout.Proofs.Nulls
import Sprout.Proofs.Outcome
import Sprout.Proofs.Parsing.Commas
import Sprout.Proofs.Parsing.Completeness
import Sprout.Proofs.Parsing.Grammar
import Sprout.Proofs.Parsing.Heights
import Sprout.Proofs.Parsing.Readings
import Sprout.Proofs.Parsing.Shapes
import Sprout.Proofs.Parsing.Soundness
import Sprout.Proofs.Parsing.TypeNames
import Sprout.Proofs.Places
import Sprout.Proofs.Places.Checks
import Sprout.Proofs.Places.Emission
import Sprout.Proofs.Places.Grouping
import Sprout.Proofs.Places.Lines
import Sprout.Proofs.Places.Parsing
import Sprout.Proofs.Places.Showing
import Sprout.Proofs.Places.Statements
import Sprout.Proofs.Places.Tokens
import Sprout.Proofs.Ranges
import Sprout.Proofs.Relocation.Emission
import Sprout.Proofs.Relocation.Parsing
import Sprout.Proofs.Relocation.Typing
import Sprout.Proofs.Scopes.History
import Sprout.Proofs.Scopes.Tables
import Sprout.Proofs.Shadowing
import Sprout.Proofs.Silence
import Sprout.Proofs.Statements.Lines
import Sprout.Proofs.Statements.Partition
import Sprout.Proofs.Statements.Pieces
import Sprout.Proofs.Statements.Regrouping
import Sprout.Proofs.Statements.Runs
import Sprout.Proofs.Statements.Spelling
import Sprout.Proofs.Statements.Steps
import Sprout.Proofs.Storable
import Sprout.Proofs.Text.Escapes
import Sprout.Proofs.Text.Legible
import Sprout.Proofs.Text.Rereading
import Sprout.Proofs.Text.Splitting
import Sprout.Proofs.Trees
import Sprout.Proofs.Typing.Dependence
import Sprout.Proofs.Typing.Parts
import Sprout.Proofs.Typing.Steps
import Sprout.Proofs.Warnings
import Sprout.Proofs.Words
import Sprout.Proofs.Writes
import Sprout.Scope
import Sprout.Source
import Sprout.Statement
import Sprout.Statement.Grouping
import Sprout.Target.Literal
import Sprout.Target.Name
import Sprout.Text.Combining
import Sprout.Text.Printable
import Sprout.Text.Quoted
import Sprout.Token
import Sprout.Token.Lexer
import Sprout.Ty
import Sprout.Typed
import Sprout.Typing
