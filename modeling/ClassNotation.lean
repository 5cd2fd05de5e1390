import ClassNotation.Main
import ClassNotation.Model.Edit
import ClassNotation.Proofs.GrammarReadings
import ClassNotation.Proofs.RelationLinks
import ClassNotation.Proofs.Scanning
import ClassNotation.Proofs.HeaderReadings
import ClassNotation.Proofs.CanonicalDocument
import ClassNotation.Proofs.CanonicalScans
import ClassNotation.Proofs.RelationPhrases
import ClassNotation.Proofs.CanonicalRelations
import ClassNotation.Proofs.TextLines
import ClassNotation.Proofs.CanonicalReading
import ClassNotation.Proofs.WellFormedModels
import ClassNotation.Proofs.FaithfulRendering
import ClassNotation.Proofs.Composition
import ClassNotation.Proofs.AppendedText
import ClassNotation.Proofs.BackwardArrow
import ClassNotation.Proofs.PipelineResults
import ClassNotation.Proofs.DetectionAgreement
import ClassNotation.Proofs.CommandAgreement
import ClassNotation.Proofs.EditHistory
import ClassNotation.Proofs.LineEndings
import ClassNotation.Proofs.DetectorOrder
import ClassNotation.Proofs.MarkPieces
import ClassNotation.Proofs.RenderedHeaders
import ClassNotation.Proofs.HeaderForms
import ClassNotation.Proofs.RelationForms
import ClassNotation.Proofs.MemberSegments
import ClassNotation.Proofs.ReadingLog
import ClassNotation.Proofs.GenerateOutcome
import ClassNotation.Proofs.MemberForms
import ClassNotation.Proofs.BodyMembers
import ClassNotation.Proofs.MembersOnOneLine
import ClassNotation.Proofs.AbstractMarks
import ClassNotation.Proofs.FaithfulJson
import ClassNotation.Proofs.WholeNames
import ClassNotation.Proofs.BareRelations
import ClassNotation.Proofs.ColouredText
import ClassNotation.Proofs.LeftmostReadings
import ClassNotation.Proofs.CharacterRuns
import ClassNotation.Proofs.SegmentCuts
