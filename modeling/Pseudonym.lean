import Pseudonym.Chores
import Pseudonym.Codebook
import Pseudonym.Codebook.Indexed
import Pseudonym.CommandLine.Command
import Pseudonym.CommandLine.Help
import Pseudonym.CommandLine.Program
import Pseudonym.CommandLine.Reading
import Pseudonym.CommandLine.Refusal
import Pseudonym.CommandLine.Settings
import Pseudonym.CommandLine.Similarity
import Pseudonym.Disk.Basic
import Pseudonym.Disk.Listing
import Pseudonym.Document
import Pseudonym.Language
import Pseudonym.LineDiff.Hunk
import Pseudonym.LineDiff.Rendered
import Pseudonym.LineDiff.Script
import Pseudonym.LineDiff.Settled
import Pseudonym.LineDiff.Shortest
import Pseudonym.Main
import Pseudonym.Markup
import Pseudonym.Mint
import Pseudonym.Path
import Pseudonym.Piece
import Pseudonym.Project.ClassPass
import Pseudonym.Project.ImagePass
import Pseudonym.Project.Notice
import Pseudonym.Project.Run
import Pseudonym.Project.Workspace
import Pseudonym.Proofs.Exchange
import Pseudonym.Proofs.Utf8
import Pseudonym.Random.Keystream
import Pseudonym.Random.Source
import Pseudonym.Reference
import Pseudonym.Script
import Pseudonym.Stylesheet.ClassName
import Pseudonym.Stylesheet.Prelude
import Pseudonym.Stylesheet.Scan
import Pseudonym.Substitution
import Pseudonym.Text.Basic
import Pseudonym.Text.ControlSequence
import Pseudonym.Text.Quoted
import Pseudonym.Text.Slice
import Pseudonym.Text.Unprintable
import Pseudonym.Text.Utf8
import Pseudonym.Token
import Pseudonym.Proofs.FileNameRuns
import Pseudonym.Proofs.References
import Pseudonym.Proofs.Extension
import Pseudonym.Proofs.ClassTokens
import Pseudonym.Proofs.Stylesheets
import Pseudonym.Proofs.Minting
import Pseudonym.Proofs.Passes
import Pseudonym.Proofs.Bare
import Pseudonym.Proofs.Stages
import Pseudonym.Proofs.Namings
import Pseudonym.Proofs.Paths
import Pseudonym.Proofs.Trees
import Pseudonym.Proofs.Listings
import Pseudonym.Proofs.Edits
import Pseudonym.Proofs.Moves
import Pseudonym.Proofs.Charsets
import Pseudonym.Proofs.Images
import Pseudonym.Proofs.Runs
import Pseudonym.Proofs.Classes
import Pseudonym.Proofs.Borders
import Pseudonym.Proofs.Harvests
import Pseudonym.Proofs.Sheets
import Pseudonym.Proofs.Keeping
import Pseudonym.Proofs.DryRuns
import Pseudonym.Proofs.Agreement
import Pseudonym.Proofs.Sessions
import Pseudonym.Proofs.Lexemes
import Pseudonym.Proofs.Literals
import Pseudonym.Proofs.Attributes
import Pseudonym.Proofs.Inverses
import Pseudonym.Proofs.Replays
import Pseudonym.Proofs.Renamings
import Pseudonym.Proofs.Scripts
import Pseudonym.Proofs.AttributeWords
import Pseudonym.Proofs.Failures
import Pseudonym.Proofs.Occurrences
import Pseudonym.Proofs.Lexings
import Pseudonym.Proofs.Strings
import Pseudonym.Proofs.Comments
import Pseudonym.Proofs.Mentions
import Pseudonym.Proofs.Respellings
import Pseudonym.Proofs.Forecasts
import Pseudonym.Proofs.Frontiers
import Pseudonym.Proofs.Searches
import Pseudonym.Proofs.Divisions
import Pseudonym.Proofs.Settlings
import Pseudonym.Proofs.Displays
import Pseudonym.Proofs.Patches
import Pseudonym.Proofs.Chains
import Pseudonym.Proofs.Skips
import Pseudonym.Proofs.Weights
import Pseudonym.Proofs.Changes
import Pseudonym.Proofs.Visits
import Pseudonym.Proofs.Reorderings
import Pseudonym.Proofs.WriteOnce
import Pseudonym.Proofs.CheckedValues
import Pseudonym.Proofs.Preconditions
import Pseudonym.Proofs.Scans
import Pseudonym.Proofs.Bytewise
