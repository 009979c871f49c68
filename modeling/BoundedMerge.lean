import BoundedMerge.Batch
import BoundedMerge.Command.FileTree
import BoundedMerge.Command.Lines
import BoundedMerge.Command.Options
import BoundedMerge.Command.Run
import BoundedMerge.Disk
import BoundedMerge.FixedWidth
import BoundedMerge.Layout.Basic
import BoundedMerge.Layout.Notation
import BoundedMerge.Layout.Order
import BoundedMerge.Layout.Scalar
import BoundedMerge.Ledger
import BoundedMerge.LittleEndian
import BoundedMerge.LittleEndian.Lemmas
import BoundedMerge.Main
import BoundedMerge.Merge.Error
import BoundedMerge.Merge.Formation
import BoundedMerge.Merge.Pass
import BoundedMerge.Merge.Passes
import BoundedMerge.Merge.Plan
import BoundedMerge.Proofs.Accounts
import BoundedMerge.Proofs.Command.Job
import BoundedMerge.Proofs.Command.Lines
import BoundedMerge.Proofs.Command.Load
import BoundedMerge.Proofs.Command.Run
import BoundedMerge.Proofs.Disk.Bytes
import BoundedMerge.Proofs.Disk.Records
import BoundedMerge.Proofs.Disk.Refusals
import BoundedMerge.Proofs.Layout.Buffers
import BoundedMerge.Proofs.Layout.Lawful
import BoundedMerge.Proofs.Layout.Order
import BoundedMerge.Proofs.Merge.Balance
import BoundedMerge.Proofs.Merge.Budget
import BoundedMerge.Proofs.Merge.Driver
import BoundedMerge.Proofs.Merge.Feeds
import BoundedMerge.Proofs.Merge.Follow
import BoundedMerge.Proofs.Merge.Forecast
import BoundedMerge.Proofs.Merge.Formation
import BoundedMerge.Proofs.Merge.FormationBalance
import BoundedMerge.Proofs.Merge.FormationBudget
import BoundedMerge.Proofs.Merge.FormationCount
import BoundedMerge.Proofs.Merge.FormationSteady
import BoundedMerge.Proofs.Merge.Limit
import BoundedMerge.Proofs.Merge.MergeCount
import BoundedMerge.Proofs.Merge.PassCount
import BoundedMerge.Proofs.Merge.Passes
import BoundedMerge.Proofs.Merge.PassesBalance
import BoundedMerge.Proofs.Merge.PassesBudget
import BoundedMerge.Proofs.Merge.Plain
import BoundedMerge.Proofs.Merge.Plan
import BoundedMerge.Proofs.Merge.Shortage
import BoundedMerge.Proofs.Merge.Shuffle
import BoundedMerge.Proofs.Merge.Slack
import BoundedMerge.Proofs.Merge.Sort
import BoundedMerge.Proofs.Merge.Stable
import BoundedMerge.Proofs.Merge.Steady
import BoundedMerge.Proofs.Order
import BoundedMerge.Proofs.Random.Draw
import BoundedMerge.Proofs.Selection.Contents
import BoundedMerge.Proofs.Selection.Heap
import BoundedMerge.Proofs.Selection.History
import BoundedMerge.Proofs.Site.Echoes
import BoundedMerge.Proofs.Site.Guards
import BoundedMerge.Proofs.Site.Meets
import BoundedMerge.Proofs.Site.Plain
import BoundedMerge.Proofs.Site.Reports
import BoundedMerge.Proofs.Site.Settles
import BoundedMerge.Proofs.Site.Tallies
import BoundedMerge.Proofs.Site.Work
import BoundedMerge.Proofs.Site.Yields
import BoundedMerge.Proofs.Sorting.Insertion
import BoundedMerge.Proofs.Sorting.Quick
import BoundedMerge.Proofs.Sorting.Shifts
import BoundedMerge.Proofs.Sorting.Split
import BoundedMerge.Proofs.Sorting.Stable
import BoundedMerge.Proofs.Strategy.Answers
import BoundedMerge.Proofs.Strategy.Balance
import BoundedMerge.Proofs.Strategy.Blind
import BoundedMerge.Proofs.Strategy.Budget
import BoundedMerge.Proofs.Strategy.Dealing
import BoundedMerge.Proofs.Strategy.Diligent
import BoundedMerge.Proofs.Strategy.FirstPending
import BoundedMerge.Proofs.Strategy.Interleave
import BoundedMerge.Proofs.Strategy.Interleaving
import BoundedMerge.Proofs.Strategy.Joining
import BoundedMerge.Proofs.Strategy.Ordered
import BoundedMerge.Proofs.Strategy.Plain
import BoundedMerge.Proofs.Strategy.Policy
import BoundedMerge.Proofs.Strategy.Race
import BoundedMerge.Proofs.Strategy.Rankings
import BoundedMerge.Proofs.Strategy.Renewal
import BoundedMerge.Proofs.Strategy.Scan
import BoundedMerge.Proofs.Strategy.Uniform
import BoundedMerge.Proofs.Strategy.Unprepared
import BoundedMerge.Proofs.Strategy.Weights
import BoundedMerge.Proofs.Tape.Balance
import BoundedMerge.Proofs.Tape.Budget
import BoundedMerge.Proofs.Tape.Custody
import BoundedMerge.Proofs.Tape.Denials
import BoundedMerge.Proofs.Tape.Image
import BoundedMerge.Proofs.Tape.Journey
import BoundedMerge.Proofs.Tape.Keeps
import BoundedMerge.Proofs.Tape.Owed
import BoundedMerge.Proofs.Tape.Pledge
import BoundedMerge.Proofs.Tape.Progress
import BoundedMerge.Proofs.Tape.Reel
import BoundedMerge.Proofs.Tape.Rest
import BoundedMerge.Proofs.Tape.Retry
import BoundedMerge.Proofs.Tape.Session
import BoundedMerge.Proofs.Tape.Steady
import BoundedMerge.Proofs.Tape.Turns
import BoundedMerge.Proofs.Tape.Upholds
import BoundedMerge.Proofs.Text.Numeral
import BoundedMerge.Proofs.Text.Utf8
import BoundedMerge.Proofs.Wire.Reading
import BoundedMerge.Proofs.Wire.RoundTrip
import BoundedMerge.Proofs.Wire.Slices
import BoundedMerge.Proofs.Wire.Spelling
import BoundedMerge.Proofs.Wire.Tokens
import BoundedMerge.Proofs.Wire.Truncation
import BoundedMerge.Random.Draw
import BoundedMerge.Random.KeyStream
import BoundedMerge.Rounding
import BoundedMerge.Selection
import BoundedMerge.Site
import BoundedMerge.Sorting.Basic
import BoundedMerge.Sorting.Insertion
import BoundedMerge.Sorting.Split
import BoundedMerge.SparseBytes
import BoundedMerge.Strategy.Basic
import BoundedMerge.Strategy.Choice
import BoundedMerge.Strategy.Drive
import BoundedMerge.Strategy.FirstPending
import BoundedMerge.Strategy.Interleave
import BoundedMerge.Strategy.Ordered
import BoundedMerge.Strategy.Taken
import BoundedMerge.Tape.Basic
import BoundedMerge.Tape.Error
import BoundedMerge.Text.Blank
import BoundedMerge.Text.ByteAmount
import BoundedMerge.Text.Hex
import BoundedMerge.Text.Numeral
import BoundedMerge.Text.Utf8
import BoundedMerge.Wire.Buffer
import BoundedMerge.Wire.Datum
import BoundedMerge.Wire.Error
import BoundedMerge.Wire.Format
import BoundedMerge.Wire.Reader
import BoundedMerge.Wire.Token
import BoundedMerge.Wire.Writer
