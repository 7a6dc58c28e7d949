import ConceptExpansion.Store.Sharing
import ConceptExpansion.Rule.Script
import ConceptExpansion.Scenario.Basic
import ConceptExpansion.Proofs.Auditing.AuditLists
import ConceptExpansion.Proofs.Auditing.Depths
import ConceptExpansion.Proofs.Expansion.Ancestry
import ConceptExpansion.Proofs.Expansion.Ceilings
import ConceptExpansion.Proofs.Expansion.Chains
import ConceptExpansion.Proofs.Expansion.Closure
import ConceptExpansion.Proofs.Expansion.Conservation
import ConceptExpansion.Proofs.Expansion.Diagnostics
import ConceptExpansion.Proofs.Expansion.OrdinaryRules
import ConceptExpansion.Proofs.Expansion.ReadingRules
import ConceptExpansion.Proofs.Expansion.Reexpansion
import ConceptExpansion.Proofs.Expansion.RuleOrder
import ConceptExpansion.Proofs.Expansion.Safety
import ConceptExpansion.Proofs.Expansion.SeedCopies
import ConceptExpansion.Proofs.Expansion.SeedOrder
import ConceptExpansion.Proofs.Expansion.SeedOrigin
import ConceptExpansion.Proofs.Expansion.SharedBudget
import ConceptExpansion.Proofs.Expansion.SingleExpansion
import ConceptExpansion.Proofs.Expansion.Termination
import ConceptExpansion.Proofs.Json.RoundTrip
import ConceptExpansion.Proofs.Rule.Drafting
import ConceptExpansion.Proofs.Run.Deferral
import ConceptExpansion.Proofs.Run.Settings
import ConceptExpansion.Proofs.Store.AdmissionOrder
import ConceptExpansion.Proofs.Store.GivenUp
import ConceptExpansion.Proofs.Store.Grounding
import ConceptExpansion.Proofs.Store.Handles
import ConceptExpansion.Proofs.Store.InPlace
import ConceptExpansion.Proofs.Store.Merging
import ConceptExpansion.Proofs.Store.Permanence
import ConceptExpansion.Proofs.Store.Racing
import ConceptExpansion.Proofs.Store.Reordering
import ConceptExpansion.Proofs.Store.Views
import ConceptExpansion.Proofs.Value.Linear
