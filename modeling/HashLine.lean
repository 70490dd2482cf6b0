import HashLine.Byte
import HashLine.Byte.Escape
import HashLine.Identifier
import HashLine.Text
import HashLine.Text.Split
import HashLine.Span
import HashLine.Source
import HashLine.Cursor
import HashLine.Quotes
import HashLine.Options
import HashLine.Directive
import HashLine.Warning
import HashLine.Scan.Event
import HashLine.Scan.State
import HashLine.Scan
import HashLine.Scan.Log
import HashLine.Style
import HashLine.Diagnostic.Line
import HashLine.Diagnostic.Window
import HashLine.Diagnostic
import HashLine.Filter
import HashLine.Filter.Names
import HashLine.Report
import HashLine.Report.Render
import HashLine.Arguments
import HashLine.Folder
import HashLine.Scan.File
import HashLine.Program
import HashLine.Program.Surroundings
import HashLine.Main
import HashLine.Proofs.Offset
import HashLine.Proofs.Course
import HashLine.Proofs.Rounds
import HashLine.Proofs.Following
import HashLine.Proofs.Regions
import HashLine.Proofs.Directives
import HashLine.Proofs.Strictness
import HashLine.Proofs.Strays
import HashLine.Proofs.Seam
import HashLine.Proofs.Concatenation
import HashLine.Proofs.Policies
import HashLine.Proofs.Gating
import HashLine.Proofs.Lockstep
import HashLine.Proofs.Arrival
import HashLine.Proofs.Breakage
import HashLine.Proofs.Deliveries
import HashLine.Proofs.Location
import HashLine.Proofs.Lines
import HashLine.Proofs.Delimiting
import HashLine.Proofs.ReadBack
import HashLine.Proofs.Print
import HashLine.Proofs.Windows
import HashLine.Proofs.Reprinting
import HashLine.Proofs.Elsewhere
import HashLine.Proofs.Inputs
import HashLine.Proofs.Formats
import HashLine.Proofs.CheckedScan
import HashLine.Proofs.CheckedReport
import HashLine.Proofs.Totals
import HashLine.Proofs.Splicing
import HashLine.Proofs.LogicalLine
import HashLine.Proofs.Names
import HashLine.Proofs.Sifting
import HashLine.Proofs.Escapes
import HashLine.Proofs.GivenNames
import HashLine.Proofs.Resuming
import HashLine.Proofs.FailedAdvance
import HashLine.Proofs.FirstRow
import HashLine.Proofs.Positions
import HashLine.Proofs.Words
import HashLine.Proofs.Literals
