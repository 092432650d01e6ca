import Arbiter.Proofs.Cache.Agreement
import Arbiter.Proofs.Cache.Conservation
import Arbiter.Proofs.Cache.Freshness
import Arbiter.Proofs.Cache.Inclusion
import Arbiter.Proofs.Cache.Pressure
import Arbiter.Proofs.Cache.Provenance
import Arbiter.Proofs.Cache.Supply
import Arbiter.Proofs.Cache.Waiting
import Arbiter.Proofs.Decision.Key
import Arbiter.Proofs.Dependencies.Answers
import Arbiter.Proofs.Dependencies.FirstCycle
import Arbiter.Proofs.Digraph.Exploration
import Arbiter.Proofs.Links.Survey
import Arbiter.Proofs.Metrics.Exposition
import Arbiter.Proofs.Module.Faults
import Arbiter.Proofs.Scenario.Session
