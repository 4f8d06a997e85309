import Arborist.Main
import Arborist.Proofs.DisabledRules
import Arborist.Proofs.Excludes
import Arborist.Proofs.RoundTrip
import Arborist.Proofs.SkipRobustness
import Arborist.Proofs.ContextReuse
import Arborist.Proofs.TreeText
import Arborist.Proofs.SourcePaths
import Arborist.Proofs.LocationGrammar
import Arborist.Proofs.Edges
import Arborist.Proofs.StatelessRules
import Arborist.Proofs.SubWalk
import Arborist.Proofs.JsonOutput
import Arborist.Proofs.ConfigOrigin
import Arborist.Proofs.RuleFilter
import Arborist.Proofs.NamedDirectories
import Arborist.Proofs.ScopeStack
