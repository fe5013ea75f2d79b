import LineShell.CommandLine
import LineShell.Main
import LineShell.Proofs.Glob.Hidden
import LineShell.Proofs.Glob.Inclusion
import LineShell.Proofs.Glob.Order
import LineShell.Proofs.Glob.Slashes
import LineShell.Proofs.Line.Quotations
import LineShell.Proofs.Line.RoundTrip
import LineShell.Proofs.Line.Spans
import LineShell.Proofs.Run.CapturedLines
import LineShell.Proofs.Run.Failures
import LineShell.Proofs.Run.Feeding
import LineShell.Proofs.Run.Nesting
import LineShell.Proofs.Run.ReadingErrors
import LineShell.Proofs.Run.Redirections
import LineShell.Proofs.Run.Sequences
