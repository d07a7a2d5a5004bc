import HostScript.Main
import HostScript.Server.Handle
import HostScript.Token.Source
import HostScript.Proofs.Block.Layout
import HostScript.Proofs.Resolution.Reachable
import HostScript.Proofs.Check.Findings
import HostScript.Proofs.Check.Run
import HostScript.Proofs.Resolution.Dangling
import HostScript.Proofs.Parse.Nesting
import HostScript.Proofs.Server.StrictReading
import HostScript.Proofs.Server.Termination
import HostScript.Proofs.InsertPoint.Place
import HostScript.Proofs.Text.Boundary
import HostScript.Proofs.Token.Tiling
import HostScript.Proofs.Token.Classes
import HostScript.Proofs.Document.RoundTrip
import HostScript.Proofs.Parse.Places
import HostScript.Proofs.Check.Sites
import HostScript.Proofs.Check.Describe
import HostScript.Proofs.Command.Repeats
import HostScript.Proofs.Workspace.Frozen
import HostScript.Proofs.Check.Strictness
import HostScript.Proofs.Registry.Answers
import HostScript.Proofs.Check.Shift
import HostScript.Proofs.Resolution.Unreadable
import HostScript.Proofs.Server.WholeCheck
import HostScript.Proofs.Catalog.Lookup
import HostScript.Proofs.Server.Published
import HostScript.Proofs.Server.Renaming
import HostScript.Proofs.Block.Covering
import HostScript.Proofs.Server.Mirror
import HostScript.Proofs.Parse.Ranges
import HostScript.Proofs.Cursor.Includes
import HostScript.Proofs.InsertPoint.Inside
import HostScript.Proofs.Parse.Moves
import HostScript.Proofs.Parse.Account
import HostScript.Proofs.Parse.Groups
import HostScript.Proofs.Parse.Arguments
import HostScript.Proofs.Server.EnclosingCall
import HostScript.Proofs.Parse.Laminar
import HostScript.Proofs.Resolution.DepthFirst
import HostScript.Proofs.Cursor.Classified
import HostScript.Proofs.Document.Accepted
import HostScript.Proofs.Server.Folding
import HostScript.Proofs.Check.Progress
import HostScript.Proofs.Server.Signature
import HostScript.Proofs.InsertPoint.Contents
import HostScript.Proofs.Token.Operations
import HostScript.Proofs.Text.Dedent
import HostScript.Proofs.Render.Carets
import HostScript.Proofs.Disk.HostFiles
import HostScript.Proofs.Token.Source
import HostScript.Proofs.Server.Completion
