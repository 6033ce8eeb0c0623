import Prosody.Main
import Prosody.Proofs.ExhaustiveSearch
import Prosody.Proofs.Expansions
import Prosody.Proofs.Metres
import Prosody.Proofs.Splicing
import Prosody.Proofs.EarliestFault
import Prosody.Proofs.Convergence
import Prosody.Proofs.Stability
import Prosody.Proofs.Overruns
import Prosody.Proofs.PlainPatterns
import Prosody.Proofs.Brackets
import Prosody.Proofs.Wildcards
import Prosody.Proofs.Mandatory
import Prosody.Proofs.PerfectPoems
import Prosody.Proofs.Improvement
import Prosody.Proofs.Redundancy
import Prosody.Proofs.Leftover
import Prosody.Proofs.Endings
import Prosody.Proofs.Weakening
import Prosody.Proofs.Additivity
import Prosody.Proofs.PrintedPoems
import Prosody.Proofs.Walks
import Prosody.Proofs.Standings
