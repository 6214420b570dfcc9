import LayeredConfig.Main
import LayeredConfig.Host.Memory
import LayeredConfig.Tree.Traversal
import LayeredConfig.Proofs.Compile.AliasOverride
import LayeredConfig.Proofs.Compile.AliasValue
import LayeredConfig.Proofs.Compile.Canonical
import LayeredConfig.Proofs.Compile.DefaultText
import LayeredConfig.Proofs.Compile.InheritanceWalk
import LayeredConfig.Proofs.Compile.Inheriting
import LayeredConfig.Proofs.Compile.Isolation
import LayeredConfig.Proofs.Compile.LayeredSettings
import LayeredConfig.Proofs.Compile.Leftovers
import LayeredConfig.Proofs.Cuts
import LayeredConfig.Proofs.KeyOrder.Compile
import LayeredConfig.Proofs.MergedNames
import LayeredConfig.Proofs.PathTexts
import LayeredConfig.Proofs.Command.SavedFile
import LayeredConfig.Proofs.Renaming.Occurrences
import LayeredConfig.Proofs.Session.AnchorRename
import LayeredConfig.Proofs.Session.DefaultEdit
import LayeredConfig.Proofs.Session.KeyRename
import LayeredConfig.Proofs.Session.Numbering
import LayeredConfig.Proofs.Session.Offers
import LayeredConfig.Proofs.Session.OverrideSearch
import LayeredConfig.Proofs.Session.Reload
import LayeredConfig.Proofs.Tree.Traversal
import LayeredConfig.Proofs.Tree.AlignedPaths
import LayeredConfig.Proofs.Yaml.Lossless
import LayeredConfig.Proofs.Yaml.Rebuilt
import LayeredConfig.Proofs.Yaml.ShownMarkers
