import ThemeSheet.Load.Session
import ThemeSheet.Proofs.Declarations
import ThemeSheet.Proofs.Depth
import ThemeSheet.Proofs.Lexemes
import ThemeSheet.Proofs.Locality
import ThemeSheet.Proofs.Concatenation
import ThemeSheet.Proofs.Truncation
import ThemeSheet.Proofs.Siblings
import ThemeSheet.Proofs.Metadata
import ThemeSheet.Proofs.Lookup
import ThemeSheet.Proofs.Repetition
import ThemeSheet.Proofs.Accounting
import ThemeSheet.Proofs.WrittenTokens
import ThemeSheet.Proofs.RoundTrip
import ThemeSheet.Proofs.UnitSizes
import ThemeSheet.Proofs.DistinctNames
import ThemeSheet.Proofs.Exchange
import ThemeSheet.Proofs.Extension
import ThemeSheet.Proofs.ValueRows
import ThemeSheet.Proofs.Passages
import ThemeSheet.Proofs.Nesting
import ThemeSheet.Proofs.Runs
import ThemeSheet.Proofs.Kinship
import ThemeSheet.Proofs.PropertyNames
import ThemeSheet.Proofs.SegmentParts
import ThemeSheet.Proofs.Joints
import ThemeSheet.Proofs.Spacing
import ThemeSheet.Proofs.CanonicalText
import ThemeSheet.Proofs.ValueLayout
import ThemeSheet.Proofs.ValueTokens
import ThemeSheet.Proofs.Faults
import ThemeSheet.Proofs.Locations
import ThemeSheet.Proofs.MissingValues
import ThemeSheet.Proofs.Exhaustion
import ThemeSheet.Proofs.ReaderSteps
import ThemeSheet.Proofs.ReadingByParts
