import HeaderReflection.Main
import HeaderReflection.Proofs.BraceMatching
import HeaderReflection.Proofs.CanonicalForm
import HeaderReflection.Proofs.ClosedBodies
import HeaderReflection.Proofs.CommentAutomata
import HeaderReflection.Proofs.CursorRuns
import HeaderReflection.Proofs.DeclaredNames
import HeaderReflection.Proofs.Decoding
import HeaderReflection.Proofs.DirectiveLines
import HeaderReflection.Proofs.EnumDefinitions
import HeaderReflection.Proofs.ErrorOffsets
import HeaderReflection.Proofs.Files.Directory
import HeaderReflection.Proofs.Files.DryRun
import HeaderReflection.Proofs.Files.EligibleHeaders
import HeaderReflection.Proofs.Files.Naming
import HeaderReflection.Proofs.Files.ProperTrees
import HeaderReflection.Proofs.Files.StoppedRun
import HeaderReflection.Proofs.Header.RoundTrip
import HeaderReflection.Proofs.Joined.Locality
import HeaderReflection.Proofs.LeftmostFields
import HeaderReflection.Proofs.LineEnds
import HeaderReflection.Proofs.MarkerCoverage
import HeaderReflection.Proofs.NameBehindAttributes
import HeaderReflection.Proofs.NestedScopes
import HeaderReflection.Proofs.ParentWalk
import HeaderReflection.Proofs.Qualifier
import HeaderReflection.Proofs.QualifierPlace
import HeaderReflection.Proofs.RejoinedTokens
import HeaderReflection.Proofs.Segments
import HeaderReflection.Proofs.SpacedTokens
import HeaderReflection.Proofs.Strings.Extraction
import HeaderReflection.Proofs.Suggestions
import HeaderReflection.Proofs.TokenLayout
