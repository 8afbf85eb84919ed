import ReversePolish.Main
import ReversePolish.Parse.Recursive
import ReversePolish.Proofs.Failure
import ReversePolish.Proofs.Accepted
import ReversePolish.Session
import ReversePolish.Tree.Equality
import ReversePolish.Tree.Value
import ReversePolish.Tree.Written
import ReversePolish.Proofs.Postfix
import ReversePolish.Proofs.RoundTrip
import ReversePolish.Proofs.Spelling
import ReversePolish.Proofs.Traversal
import ReversePolish.Proofs.Replay
import ReversePolish.Proofs.Dialogue
import ReversePolish.Proofs.SplitOrder
import ReversePolish.Proofs.Leaves
import ReversePolish.Proofs.Blame
import ReversePolish.Parse.Turn
import ReversePolish.Proofs.Calls
import ReversePolish.Proofs.LeftDepth
import ReversePolish.Proofs.Redundant
import ReversePolish.Proofs.Spacing
import ReversePolish.Proofs.Counting
import ReversePolish.Proofs.Recovery
import ReversePolish.Proofs.Decoding
import ReversePolish.Proofs.Forms
import ReversePolish.Proofs.Progress
import ReversePolish.Parse.Bytes
import ReversePolish.Proofs.ByteScan
import ReversePolish.Proofs.ByteReading
import ReversePolish.Proofs.Comparison
import ReversePolish.Proofs.Pieces
import ReversePolish.Proofs.Rounding
import ReversePolish.Proofs.ExactValue
import ReversePolish.Proofs.LiteralValue
import ReversePolish.Proofs.Shortest
import ReversePolish.Proofs.Printed
import ReversePolish.Proofs.Searches
import ReversePolish.Proofs.Closing
