import Survey.Cursor.Session
import Survey.Inventory.Stored
import Survey.Input.Surveying
import Survey.Proofs.Arrangement
import Survey.Proofs.InventoryContents
import Survey.Proofs.Moving
import Survey.Proofs.Spans
import Survey.Proofs.AuditTotals
import Survey.Proofs.Laminar
import Survey.Proofs.CutLiterals
import Survey.Proofs.CutGroups
import Survey.Proofs.CutMarks
import Survey.Proofs.CutTokens
import Survey.Proofs.CutVisits
import Survey.Proofs.Survival
import Survey.Proofs.Truncation
import Survey.Proofs.Merging
import Survey.Proofs.Rebasing
import Survey.Proofs.Composition
import Survey.Proofs.Origins
import Survey.Proofs.Shapes
import Survey.Proofs.Consistency
import Survey.Proofs.AtomRuns
import Survey.Proofs.TokenBoundaries
import Survey.Proofs.TextsWithoutComments
import Survey.Proofs.AtomsWithoutComments
import Survey.Proofs.ReadersWithoutComments
import Survey.Proofs.FindingsWithoutComments
import Survey.Proofs.SurveysWithoutComments
import Survey.Proofs.VainSearches
import Survey.Proofs.HeadEnds
import Survey.Proofs.ClosingMarks
import Survey.Proofs.BracketBalance
import Survey.Proofs.UnnamedHeads
import Survey.Proofs.TokenHeads
import Survey.Proofs.SteppedOver
import Survey.Proofs.FoundBlocks
import Survey.Proofs.OverlookedBlocks
import Survey.Proofs.UnsafeBlocks
import Survey.Proofs.MendedReaders
import Survey.Proofs.MendedParts
import Survey.Proofs.MendedFindings
import Survey.Proofs.MendedSurveys
import Survey.Proofs.Deliveries
import Survey.Proofs.MacroBodies
import Survey.Proofs.Attempts
import Survey.Proofs.PrefixedStrings
import Survey.Proofs.Logs
import Survey.Proofs.Sessions
import Survey.Proofs.TokenStreams
import Survey.Proofs.AuditUnions
import Survey.Proofs.PairedBrackets
import Survey.Proofs.WrittenSignatures
import Survey.Proofs.SignatureRoundTrips
import Survey.Proofs.WrittenItems
import Survey.Proofs.WrittenImplementations
import Survey.Proofs.WrittenEnums
import Survey.Proofs.JoinedPlaces
import Survey.Proofs.SpelledAtoms
import Survey.Proofs.Descent
import Survey.Proofs.EncodingIssues
import Survey.Proofs.LineSearches
import Survey.Proofs.SlicedSignatures
