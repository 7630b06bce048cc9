import SolidityCompass.Editor.Session
import SolidityCompass.Import.Settings
import SolidityCompass.Proofs.Lineage
import SolidityCompass.Proofs.Nesting
import SolidityCompass.Proofs.TypeNames
import SolidityCompass.Proofs.Depth
import SolidityCompass.Proofs.TokenOrder
import SolidityCompass.Proofs.ContractEnd
import SolidityCompass.Proofs.Faults
import SolidityCompass.Proofs.TopLevel
import SolidityCompass.Proofs.Printing
import SolidityCompass.Proofs.SpelledCursors
import SolidityCompass.Proofs.TypeGrammar
import SolidityCompass.Proofs.PrintedTypes
import SolidityCompass.Proofs.PrintedFunctions
import SolidityCompass.Proofs.PrintedMembers
import SolidityCompass.Proofs.RoundTrip
import SolidityCompass.Proofs.Paths
import SolidityCompass.Proofs.ImportClosure
import SolidityCompass.Proofs.RelativePaths
import SolidityCompass.Proofs.ImportSuggestions
import SolidityCompass.Proofs.Ranges
import SolidityCompass.Proofs.OutlineRanges
import SolidityCompass.Proofs.BodyScope
import SolidityCompass.Proofs.Names
import SolidityCompass.Proofs.DeclaredNames
import SolidityCompass.Proofs.Positions
import SolidityCompass.Proofs.Definitions
import SolidityCompass.Proofs.MemberAccess
import SolidityCompass.Proofs.CallContinuation
import SolidityCompass.Proofs.PlainNames
import SolidityCompass.Proofs.Tiling
import SolidityCompass.Proofs.Listing
import SolidityCompass.Proofs.Footprint
import SolidityCompass.Proofs.OpenBuffers
import SolidityCompass.Proofs.NormalPaths
import SolidityCompass.Proofs.JoinedPaths
import SolidityCompass.Proofs.Remappings
import SolidityCompass.Proofs.Concatenation
import SolidityCompass.Proofs.TokenPatterns
import SolidityCompass.Proofs.Scanners
import SolidityCompass.Proofs.LongestMatch
import SolidityCompass.Proofs.Cutting
import SolidityCompass.Proofs.ErasedCursors
import SolidityCompass.Proofs.ErasedReadings
import SolidityCompass.Proofs.Layout
import SolidityCompass.Proofs.DeclarationSites
import SolidityCompass.Proofs.RenderedChains
import SolidityCompass.Proofs.BodyEnd
import SolidityCompass.Proofs.DeclarationGrammar
import SolidityCompass.Proofs.StatementStarts
import SolidityCompass.Proofs.IndexedTypes
import SolidityCompass.Proofs.BoundFunctions
import SolidityCompass.Proofs.Selection
import SolidityCompass.Proofs.GrowingScopes
import SolidityCompass.Proofs.DisplayedTypes
import SolidityCompass.Proofs.PrintedRemappings
import SolidityCompass.Proofs.Speculation
import SolidityCompass.Proofs.Calls
import SolidityCompass.Proofs.Progress
import SolidityCompass.Proofs.CallOrder
import SolidityCompass.Proofs.SnippetGrammar
import SolidityCompass.Proofs.CallSnippets
