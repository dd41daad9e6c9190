import CssReader.Main
import CssReader.Token.Parts
import CssReader.Proofs.Tiling
import CssReader.Proofs.Matching
import CssReader.Proofs.RoundTrip
import CssReader.Proofs.Calls
import CssReader.Proofs.Resume
import CssReader.Proofs.Layout
import CssReader.Proofs.Restart
import CssReader.Proofs.Places
import CssReader.Proofs.Lexeme.Grow
import CssReader.Proofs.Trace
import CssReader.Proofs.Extend
import CssReader.Proofs.Boundary
import CssReader.Proofs.Concat
import CssReader.Proofs.Shape
import CssReader.Proofs.Progress
import CssReader.Proofs.Written
import CssReader.Proofs.Insertion
import CssReader.Proofs.Lexeme.Warnings
import CssReader.Proofs.Session
import CssReader.Proofs.Afresh
import CssReader.Proofs.HandBack
import CssReader.Proofs.Descent
import CssReader.Proofs.Recode
import CssReader.Proofs.Literals
import CssReader.Proofs.Contents
import CssReader.Proofs.Target
import CssReader.Proofs.Numeric
import CssReader.Proofs.Peek
import CssReader.Proofs.Command
import CssReader.Proofs.Lexis.Exact
import CssReader.Proofs.Dumps
