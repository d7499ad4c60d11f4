import NestedStyles.Main
import NestedStyles.Proofs.Flattening
import NestedStyles.Proofs.Realization
import NestedStyles.Proofs.History
import NestedStyles.Proofs.ImportOrder
import NestedStyles.Proofs.Linking
import NestedStyles.Proofs.Calls
import NestedStyles.Proofs.CompilePass
import NestedStyles.Proofs.Extension
import NestedStyles.Proofs.CompiledTable
import NestedStyles.Proofs.ArenaSimulation
import NestedStyles.Proofs.Provenance
import NestedStyles.Proofs.Lexemes
import NestedStyles.Proofs.RealSelectors
import NestedStyles.Proofs.CalledRules
import NestedStyles.Proofs.MediaCalls
import NestedStyles.Proofs.Spelling
import NestedStyles.Proofs.ValueSpelling
import NestedStyles.Proofs.HeaderSpelling
import NestedStyles.Proofs.RoundTrip
import NestedStyles.Proofs.InputFile
import NestedStyles.Proofs.CompletedImports
import NestedStyles.Proofs.Resolution
import NestedStyles.Proofs.Renaming
import NestedStyles.Proofs.BalancedValues
import NestedStyles.Proofs.MediaConjunction
import NestedStyles.Proofs.Pruning
import NestedStyles.Proofs.Declarations
import NestedStyles.Proofs.RepeatedImports
import NestedStyles.Proofs.ReadValues
import NestedStyles.Proofs.WholeTexts
import NestedStyles.Proofs.WholeRules
import NestedStyles.Proofs.Layout
import NestedStyles.Proofs.Dependencies
import NestedStyles.Proofs.ExecutedCalls
import NestedStyles.Proofs.TemplateContents
import NestedStyles.Proofs.WrittenReferences
import NestedStyles.Proofs.EvaluationSteps
import NestedStyles.Proofs.Shadowing
import NestedStyles.Proofs.ValueLayers
import NestedStyles.Proofs.WellFormedSheets
import NestedStyles.Proofs.BoundedReading
import NestedStyles.Proofs.SourcePieces
import NestedStyles.Proofs.Respelling
import NestedStyles.Proofs.Locality
import NestedStyles.Proofs.ExtensionTargets
import NestedStyles.Proofs.Ampersands
import NestedStyles.Proofs.TemplateBodies
