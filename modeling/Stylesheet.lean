import Stylesheet.Json.Writer
import Stylesheet.Main
import Stylesheet.Proofs.Blocks
import Stylesheet.Proofs.CommandModes
import Stylesheet.Proofs.CommutingDefinitions
import Stylesheet.Proofs.Concatenation
import Stylesheet.Proofs.DeadDefinitions
import Stylesheet.Proofs.DefinitionRoundTrip
import Stylesheet.Proofs.ErrorNodes
import Stylesheet.Proofs.HostInfluence
import Stylesheet.Proofs.InterleavedBlocks
import Stylesheet.Proofs.NestedSelectors
import Stylesheet.Proofs.OperatorDomain
import Stylesheet.Proofs.ParameterRenaming
import Stylesheet.Proofs.QuotedText
import Stylesheet.Proofs.RuleIsolation
import Stylesheet.Proofs.SinkLimit
import Stylesheet.Proofs.StaticSoundness
import Stylesheet.Proofs.TreeRearrangement
