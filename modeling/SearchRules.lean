import SearchRules.Main
import SearchRules.Proofs.Clause.Written
import SearchRules.Proofs.CommandLine.Effects
import SearchRules.Proofs.Composition.Emptiness
import SearchRules.Proofs.Composition.FieldNames
import SearchRules.Proofs.Composition.Growth
import SearchRules.Proofs.Composition.Meaning
import SearchRules.Proofs.Composition.Multiplicity
import SearchRules.Proofs.Composition.Packed
import SearchRules.Proofs.Composition.Rewriting
import SearchRules.Proofs.Composition.Shape
import SearchRules.Proofs.Composition.Siblings
import SearchRules.Proofs.Composition.TermKeys
import SearchRules.Proofs.Composition.Tiers
import SearchRules.Proofs.Composition.Wildcards
import SearchRules.Proofs.Config.Defaults
import SearchRules.Proofs.Document.Keys
import SearchRules.Proofs.Mapping.Mirror
import SearchRules.Proofs.Mapping.Nesting
import SearchRules.Proofs.Mapping.Reach
import SearchRules.Proofs.Request.RoundTrip
import SearchRules.Proofs.Rule.Spelling
import SearchRules.Proofs.Text.Active
import SearchRules.Proofs.Text.OpenEnd
import SearchRules.Proofs.Text.Unescape
