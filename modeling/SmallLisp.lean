import SmallLisp.Main
import SmallLisp.Proofs.Client
import SmallLisp.Proofs.Eval.Calls
import SmallLisp.Proofs.Eval.Isolation
import SmallLisp.Proofs.Eval.Let
import SmallLisp.Proofs.Eval.Limit
import SmallLisp.Proofs.Eval.Located
import SmallLisp.Proofs.Eval.Machine
import SmallLisp.Proofs.Eval.Malformed
import SmallLisp.Proofs.Eval.Names
import SmallLisp.Proofs.Eval.Nesting
import SmallLisp.Proofs.Eval.Operator
import SmallLisp.Proofs.Eval.Regrouping
import SmallLisp.Proofs.Eval.Skipped
import SmallLisp.Proofs.Eval.Termination
import SmallLisp.Proofs.Listing
import SmallLisp.Proofs.Listing.Tokens
import SmallLisp.Proofs.Parse.Descent
import SmallLisp.Proofs.Parse.Earliest
import SmallLisp.Proofs.Parse.Progress
import SmallLisp.Proofs.Relabel.Renaming
import SmallLisp.Proofs.Scan.Layout
import SmallLisp.Proofs.Scan.Strings
import SmallLisp.Proofs.Scan.Unclosed
import SmallLisp.Proofs.Session.Chunks
import SmallLisp.Proofs.Session.Identity
import SmallLisp.Proofs.Session.Safety
import SmallLisp.Proofs.Session.Shared
