import TreeMatching.Draft
import TreeMatching.Proofs.AdoptionBalance
import TreeMatching.Proofs.Backtracking
import TreeMatching.Proofs.ChildShares
import TreeMatching.Proofs.CrossedLeaves
import TreeMatching.Proofs.DistanceMetric
import TreeMatching.Proofs.EqualLeaves
import TreeMatching.Proofs.Failures
import TreeMatching.Proofs.FirstPartners
import TreeMatching.Proofs.GramAgreement
import TreeMatching.Proofs.GreedyChoice
import TreeMatching.Proofs.GrownTrees
import TreeMatching.Proofs.InnerPairs
import TreeMatching.Proofs.Keyroots
import TreeMatching.Proofs.KindHistory
import TreeMatching.Proofs.LabelAwareFits
import TreeMatching.Proofs.LeafProgress
import TreeMatching.Proofs.OptimalScript
import TreeMatching.Proofs.Overlaps
import TreeMatching.Proofs.PairingHistory
import TreeMatching.Proofs.ParentPartners
import TreeMatching.Proofs.Positions
import TreeMatching.Proofs.QueuedLinks
import TreeMatching.Proofs.Realignment
import TreeMatching.Proofs.RenamedStages
import TreeMatching.Proofs.Renaming
import TreeMatching.Proofs.SharedSubtrees
import TreeMatching.Proofs.SimilarLeaves
import TreeMatching.Proofs.TermGrammar
import TreeMatching.Proofs.TermRoundTrip
import TreeMatching.Proofs.TopDownSearch
import TreeMatching.Proofs.UnreadableLabels
import TreeMatching.Proofs.VoteTables
import TreeMatching.Proofs.WrittenDistances
import TreeMatching.Term.Writer
