import Typings.Project.Codec
import Typings.Run.CommandLine
import Typings.Main
import Typings.Pattern.Lemmas
import Typings.Proofs.JavaType.Conversion
import Typings.Proofs.Source.Noninterference
import Typings.Proofs.TypeScript.Meaning
import Typings.Proofs.Source.PrintedHeader
import Typings.Proofs.Source.PrintedParameters
import Typings.Proofs.Source.DeclarationParts
import Typings.Proofs.Source.PrintedMembers
import Typings.Proofs.Source.TypeSearch
import Typings.Proofs.Source.PrintedTypes
import Typings.Proofs.Source.PrintedFile
import Typings.Proofs.Output.HookRegistry
import Typings.Proofs.Output.DeclaredNames
import Typings.Proofs.Output.CrossReferences
import Typings.Proofs.Pattern.Parting
import Typings.Proofs.Source.DocComments
import Typings.Proofs.Source.Rewording
import Typings.Proofs.Source.DocProse
import Typings.Proofs.Output.CanonicalOrder
import Typings.Proofs.Project.Workers
import Typings.Proofs.Json.RoundTrip
import Typings.Proofs.Run.Regeneration
import Typings.Proofs.Run.Accounting
import Typings.Proofs.FileSystem.Growth
import Typings.Proofs.Run.Inputs
import Typings.Proofs.Run.Placement
import Typings.Proofs.Run.Collisions
import Typings.Proofs.Project.Sessions
import Typings.Proofs.Source.ByteScan
import Typings.Proofs.Source.MaskedBytes
import Typings.Proofs.Pattern.Boundaries
import Typings.Proofs.Source.CheckedHeader
import Typings.Proofs.Source.CheckedMembers
import Typings.Proofs.Source.CheckedExtract
import Typings.Proofs.Source.BlockGrammar
import Typings.Proofs.Source.Remasking
import Typings.Proofs.Pattern.Groups
import Typings.Proofs.Source.WrittenTypes
import Typings.Proofs.Source.Constructors
import Typings.Proofs.Source.Variables
import Typings.Proofs.Source.WrittenHeader
import Typings.Proofs.Source.SpacedParameters
import Typings.Proofs.Pattern.Removing
import Typings.Proofs.Source.AnnotatedParameters
import Typings.Proofs.Source.CapturedDocs
import Typings.Proofs.Output.DocIndentation
import Typings.Proofs.Output.RelativeModules
import Typings.Proofs.Output.KnownNames
import Typings.Proofs.Source.WrittenImports
import Typings.Proofs.Run.Survivors
import Typings.Proofs.Text.TopLevel
import Typings.Proofs.Output.TypeParameters
import Typings.Proofs.Source.ExtractedModel
import Typings.Proofs.Source.Undocumented
import Typings.Proofs.Project.Averages
import Typings.Proofs.Source.BlockTokens
import Typings.Proofs.Source.ScanLoops
import Typings.Proofs.Source.QuotedLines
import Typings.Proofs.Source.DocMembership
import Typings.Proofs.Text.CompactGaps
