import Jojobot.Attention
import Jojobot.Attention.CheckIn
import Jojobot.Attention.CheckIn.Runs
import Jojobot.Attention.CheckIn.Turns
import Jojobot.Attention.DueMoment
import Jojobot.Attention.Occurring
import Jojobot.Attention.Projected
import Jojobot.Attention.Reading
import Jojobot.Fold.Held.Run
import Jojobot.Library.Batches
import Jojobot.Library.Bisect
import Jojobot.Library.ByKey
import Jojobot.Library.Bytes
import Jojobot.Library.Chase
import Jojobot.Library.Climb
import Jojobot.Library.Delimited
import Jojobot.Library.Descent
import Jojobot.Library.Destutter
import Jojobot.Library.Fallible
import Jojobot.Library.FirstWay
import Jojobot.Library.Indexing
import Jojobot.Library.Journal
import Jojobot.Library.KeepFirst
import Jojobot.Library.Keyed
import Jojobot.Library.Lasso
import Jojobot.Library.LastMet
import Jojobot.Library.LastMet.Ways
import Jojobot.Library.Laying
import Jojobot.Library.Leading
import Jojobot.Library.Lines
import Jojobot.Library.Occurrences
import Jojobot.Library.Packing
import Jojobot.Library.Reading
import Jojobot.Library.Respelling
import Jojobot.Library.Runs
import Jojobot.Library.Sorting
import Jojobot.Library.Tally
import Jojobot.Library.Text
import Jojobot.Library.Trails
import Jojobot.Library.Trails.Ways
import Jojobot.Library.Weave
import Jojobot.Library.WovenLast
import Jojobot.Mailbox
import Jojobot.Mailbox.Calls
import Jojobot.Mailbox.Conserved
import Jojobot.Mailbox.Counts
import Jojobot.Mailbox.Effects
import Jojobot.Mailbox.Guard
import Jojobot.Mailbox.Kept
import Jojobot.Mailbox.Store
import Jojobot.Mailbox.Visibility
import Jojobot.Memory.Bags
import Jojobot.Memory.Bags.Newest
import Jojobot.Memory.Bags.Predicted
import Jojobot.Memory.Bags.ReadBack
import Jojobot.Memory.Bags.Stored
import Jojobot.Memory.Capacity
import Jojobot.Memory.Capacity.Merged
import Jojobot.Memory.ClaimWalk
import Jojobot.Memory.ClaimWalk.Agree
import Jojobot.Memory.ClaimWalk.Claims
import Jojobot.Memory.ClaimWalk.FoldedInto
import Jojobot.Memory.Document
import Jojobot.Memory.Document.Fit
import Jojobot.Memory.Document.Fit.Blocks
import Jojobot.Memory.Document.Fit.Chunks
import Jojobot.Memory.Document.Fit.Fences
import Jojobot.Memory.Document.Fit.Pieces
import Jojobot.Memory.Document.Fit.Refused
import Jojobot.Memory.Document.Groups
import Jojobot.Memory.Document.RoundTrip
import Jojobot.Memory.Document.Seam
import Jojobot.Memory.Document.Seam.Kept
import Jojobot.Memory.Document.Seam.Lines
import Jojobot.Memory.Document.Seam.Mended
import Jojobot.Memory.Document.Sections
import Jojobot.Memory.Entries
import Jojobot.Memory.Entries.Placing
import Jojobot.Memory.Entries.Runs
import Jojobot.Memory.Facts
import Jojobot.Memory.Filter.Expression
import Jojobot.Memory.Filter.Expression.Filled
import Jojobot.Memory.Filter.Expression.Grammar
import Jojobot.Memory.Filter.Expression.Lexing
import Jojobot.Memory.Filter.Expression.Saved
import Jojobot.Memory.Filter.Expression.Sent
import Jojobot.Memory.Filter.Expression.Shape
import Jojobot.Memory.Filter.Expression.Shaped
import Jojobot.Memory.Filter.Routed
import Jojobot.Memory.Folded
import Jojobot.Memory.Folded.Backing
import Jojobot.Memory.Folded.OneFold
import Jojobot.Memory.Folds
import Jojobot.Memory.Graph
import Jojobot.Memory.Graph.Children
import Jojobot.Memory.Graph.Reached
import Jojobot.Memory.Graph.Reverse
import Jojobot.Memory.Guarded
import Jojobot.Memory.Guarded.Chart
import Jojobot.Memory.Holders
import Jojobot.Memory.Links.AtWrite
import Jojobot.Memory.Merge
import Jojobot.Memory.Merge.Ledger
import Jojobot.Memory.Merge.Served
import Jojobot.Memory.Numbered
import Jojobot.Memory.Numbered.Guard
import Jojobot.Memory.Numbered.Runs
import Jojobot.Memory.Order.Inserts
import Jojobot.Memory.Order.Spread
import Jojobot.Memory.Readiness
import Jojobot.Memory.Room
import Jojobot.Memory.Room.Aging
import Jojobot.Memory.Room.Counted
import Jojobot.Memory.Room.Landed
import Jojobot.Memory.Room.Runs
import Jojobot.Memory.Screen.Distance
import Jojobot.Memory.Screen.EitherOrder
import Jojobot.Memory.Screen.Guard
import Jojobot.Memory.Screen.Likeness
import Jojobot.Memory.Screen.Words
import Jojobot.Memory.Testimony
import Jojobot.Memory.Testimony.Words
import Jojobot.Memory.TextEdit
import Jojobot.Memory.ViewInputs
import Jojobot.Memory.ViewInputs.Checked
import Jojobot.Memory.ViewInputs.Declared
import Jojobot.Memory.Writes
import Jojobot.Push
import Jojobot.Push.Apart
import Jojobot.Push.Drained
import Jojobot.Push.Once
import Jojobot.Push.Runs
import Jojobot.Push.Settled
import Jojobot.Requests.Canonical
import Jojobot.Requests.Canonical.Identified
import Jojobot.Requests.Canonical.ReadBack
import Jojobot.Requests.Flights
import Jojobot.Requests.Flights.Table
import Jojobot.Requests.Flights.Turns
import Jojobot.Search.Distinct
import Jojobot.Search.Excerpt
import Jojobot.Search.Excerpt.Shown
import Jojobot.Search.Relevance
import Jojobot.Search.Sessions
import Jojobot.Search.Sessions.Beats
import Jojobot.Search.Sessions.Followed
import Jojobot.Search.Sessions.Staged
import Jojobot.Search.Sessions.Synced
import Jojobot.Session.Challenge
import Jojobot.Session.Challenge.Asked
import Jojobot.Session.Challenge.Calls
import Jojobot.Session.Challenge.Granted
import Jojobot.Session.Challenge.Moved
import Jojobot.Session.Challenge.Standing
import Jojobot.Session.DeferredCounts
import Jojobot.Session.DeferredCounts.Ordered
import Jojobot.Session.DeferredCounts.Seen
import Jojobot.Session.Lease
import Jojobot.Session.Lease.Fresh
import Jojobot.Session.Lease.Held
import Jojobot.Session.Lease.Landed
import Jojobot.Session.Lease.Written
import Jojobot.Session.Registry
import Jojobot.Session.Registry.Opened
import Jojobot.Session.Registry.Rebuilt
import Jojobot.Session.Registry.Runs
import Jojobot.Writer
import Jojobot.Writer.Settled
