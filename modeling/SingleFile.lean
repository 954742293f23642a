import SingleFile.Description
import SingleFile.Main
import SingleFile.Proofs.Text.Position
import SingleFile.Proofs.Text.Search
import SingleFile.Proofs.Text.Cursor
import SingleFile.Proofs.Text.Counting
import SingleFile.Proofs.Text.LineIndex
import SingleFile.Proofs.Component.Rendering
import SingleFile.Proofs.Json.RoundTrip
import SingleFile.Proofs.Order.Stable
import SingleFile.Proofs.SourceMap.Lookup
import SingleFile.Proofs.SourceMap.History
import SingleFile.Proofs.SourceMap.Vlq
import SingleFile.Proofs.SourceMap.Sources
import SingleFile.Proofs.SourceMap.Uniform
import SingleFile.Proofs.SourceMap.Insertion
import SingleFile.Proofs.SourceMap.Retarget
import SingleFile.Proofs.SourceMap.Unmapped
import SingleFile.Proofs.Assembly.Answers
import SingleFile.Proofs.Assembly.Front
import SingleFile.Proofs.Component.BlockMap
import SingleFile.Proofs.Component.Cut
import SingleFile.Proofs.Script.Trace
import SingleFile.Proofs.Script.Rewriting
import SingleFile.Proofs.Script.Mapping
import SingleFile.Proofs.Script.Exported
import SingleFile.Proofs.Script.Locals
import SingleFile.Proofs.Transform.Run
import SingleFile.Proofs.Transform.Exactness
import SingleFile.Proofs.Transform.Exports
import SingleFile.Proofs.Transform.Surroundings
import SingleFile.Proofs.Transform.Template
import SingleFile.Proofs.Routine.Outcome
import SingleFile.Proofs.Routine.Interleaving
import SingleFile.Proofs.SourceMap.Relocate
import SingleFile.Proofs.Assembly.Relocate
import SingleFile.Proofs.Component.Insertion
import SingleFile.Proofs.Component.Nesting
import SingleFile.Proofs.Transform.Steady
import SingleFile.Proofs.Transform.Stages
import SingleFile.Proofs.Transform.Paces
import SingleFile.Proofs.Transform.Insertion
import SingleFile.Proofs.Transform.Glue
import SingleFile.Proofs.Component.ScriptMap
import SingleFile.Proofs.Component.Integrity
import SingleFile.Proofs.Assembly.Coverage
import SingleFile.Proofs.Transform.Alias
import SingleFile.Proofs.Files.Place
import SingleFile.Proofs.Component.Spelling
import SingleFile.Proofs.Script.LineBreaks
import SingleFile.Proofs.Transform.References
import SingleFile.Proofs.Resolution.NameMap
import SingleFile.Proofs.Css.Classes
import SingleFile.Proofs.Settings.CacheKey
import SingleFile.Proofs.Component.Attributes
import SingleFile.Proofs.Resolution.Modules
import SingleFile.Proofs.Transform.Functional
import SingleFile.Proofs.Assembly.StyleBlock
import SingleFile.Proofs.Json.Merge
import SingleFile.Proofs.Transform.Deliveries
import SingleFile.Proofs.Transform.Registering
import SingleFile.Proofs.Transform.RequestKeys
