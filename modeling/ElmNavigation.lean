import ElmNavigation.CommandLine.Arguments
import ElmNavigation.CommandLine.Run
import ElmNavigation.Declaration.Grammar
import ElmNavigation.Declaration.Layout
import ElmNavigation.Declaration.Parser
import ElmNavigation.Declaration.Printer
import ElmNavigation.Declaration.Report
import ElmNavigation.Declaration.Rule
import ElmNavigation.Declaration.Tree
import ElmNavigation.Declaration.TypeGrammar
import ElmNavigation.Json.Quoted
import ElmNavigation.Json.Reader
import ElmNavigation.Json.Value
import ElmNavigation.Log
import ElmNavigation.Main
import ElmNavigation.Path
import ElmNavigation.Project.Definition
import ElmNavigation.Project.Encoding
import ElmNavigation.Project.Graph
import ElmNavigation.Project.Record
import ElmNavigation.Text.Caret
import ElmNavigation.Text.LineIndex
import ElmNavigation.Text.Utf8
import ElmNavigation.Text.Width
import ElmNavigation.Text.Word
import ElmNavigation.Token.Kind
import ElmNavigation.Token.Lexer
import ElmNavigation.Token.Scanner
import ElmNavigation.Workspace.Discovery
import ElmNavigation.Workspace.FileSystem
import ElmNavigation.Workspace.Lookup
import ElmNavigation.Workspace.Manifest
import ElmNavigation.Workspace.Trace
import ElmNavigation.Proofs.Text.Lines
import ElmNavigation.Proofs.Text.Boundaries
import ElmNavigation.Proofs.Token.Scanner
import ElmNavigation.Proofs.Token.Kind
import ElmNavigation.Proofs.Token.Breaks
import ElmNavigation.Proofs.Token.Piece
import ElmNavigation.Proofs.Token.Spelling
import ElmNavigation.Proofs.Declaration.Sentence
import ElmNavigation.Proofs.Declaration.Soundness
import ElmNavigation.Proofs.Declaration.Completeness
import ElmNavigation.Proofs.Declaration.Indentation
import ElmNavigation.Proofs.Declaration.Layout
import ElmNavigation.Proofs.Declaration.Constructs
import ElmNavigation.Proofs.Declaration.Likeness
import ElmNavigation.Proofs.Declaration.Parallel
import ElmNavigation.Proofs.Declaration.Concatenation
import ElmNavigation.Proofs.Declaration.Positions
import ElmNavigation.Proofs.Declaration.Recovery
import ElmNavigation.Proofs.Declaration.Reports
import ElmNavigation.Proofs.Declaration.WellFormed
import ElmNavigation.Proofs.Declaration.WellSpelled
import ElmNavigation.Proofs.Declaration.Printing
import ElmNavigation.Proofs.Declaration.RoundTrip
import ElmNavigation.Proofs.Path
import ElmNavigation.Proofs.Project.Graph
import ElmNavigation.Proofs.Project.Resolution
import ElmNavigation.Proofs.Project.Answer
import ElmNavigation.Proofs.Workspace.Places
import ElmNavigation.Proofs.Workspace.Search
import ElmNavigation.Proofs.Workspace.Lookup
import ElmNavigation.Proofs.Declaration.Names
import ElmNavigation.Proofs.Declaration.Extent
import ElmNavigation.Proofs.Project.Build
import ElmNavigation.Proofs.Token.Tiling
import ElmNavigation.Proofs.Declaration.Recursion
import ElmNavigation.Proofs.Declaration.Termination
import ElmNavigation.Proofs.Project.Pool
import ElmNavigation.Proofs.Text.Places
import ElmNavigation.Proofs.Text.Coordinates
import ElmNavigation.Proofs.Declaration.Ownership
import ElmNavigation.Proofs.Token.Words
import ElmNavigation.Proofs.Project.Caret
import ElmNavigation.Proofs.Declaration.Opacity
import ElmNavigation.Proofs.Token.Placed
import ElmNavigation.Proofs.Token.LineBreaks
import ElmNavigation.Proofs.Token.LineEndings
import ElmNavigation.Proofs.Declaration.LineBreaks
import ElmNavigation.Proofs.Declaration.LineEndings
import ElmNavigation.Proofs.Declaration.Margin
import ElmNavigation.Proofs.Declaration.Lookahead
import ElmNavigation.Proofs.Token.Nesting
import ElmNavigation.Proofs.Workspace.Enumeration
import ElmNavigation.Proofs.Path.Parent
import ElmNavigation.Proofs.Workspace.ProjectRoot
import ElmNavigation.Proofs.Text.Counting
import ElmNavigation.Proofs.Token.LongString
import ElmNavigation.Proofs.Text.Caret
