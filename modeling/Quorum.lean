import Quorum.Cluster
import Quorum.Main
import Quorum.Proofs.Commitment
import Quorum.Simulation
import Quorum.Proofs.Delivery
import Quorum.Proofs.Run
import Quorum.Proofs.Office
import Quorum.Proofs.Emission
import Quorum.Proofs.Candidacy
import Quorum.Proofs.Election
import Quorum.Proofs.Reign
import Quorum.Proofs.Shipping
import Quorum.Proofs.Tenure
import Quorum.Proofs.LogMatching
import Quorum.Proofs.Retention
import Quorum.Proofs.Completeness
import Quorum.Proofs.Accounts
import Quorum.Proofs.Confirmation
import Quorum.Proofs.Following
import Quorum.Proofs.Acceptance
import Quorum.Proofs.Replication
import Quorum.Proofs.StateMachine
import Quorum.Proofs.Succession
import Quorum.Proofs.Accession
import Quorum.Proofs.SoleLeader
import Quorum.Proofs.Queue
import Quorum.Proofs.Permanence
import Quorum.Proofs.Safekeeping
import Quorum.Proofs.Promptness
import Quorum.Proofs.Fencing
import Quorum.Proofs.Epoch
import Quorum.Proofs.Timekeeping
import Quorum.Proofs.Quiescence
import Quorum.Proofs.Repair
import Quorum.Proofs.Exhaustion
import Quorum.Proofs.Dispatch
import Quorum.Proofs.Progress
import Quorum.Proofs.Commutation
import Quorum.Proofs.Provenance
import Quorum.Proofs.Allegiance
import Quorum.Proofs.Canvass
import Quorum.Proofs.Checked
import Quorum.Proofs.Bounds
import Quorum.Proofs.Robustness
import Quorum.Proofs.Redelivery
import Quorum.Proofs.Conversation
import Quorum.Proofs.Ballot
import Quorum.Proofs.Conservation
import Quorum.Proofs.LastWrite
import Quorum.Proofs.Spelling
