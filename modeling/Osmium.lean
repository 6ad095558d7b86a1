import Osmium.Proofs.Cat
import Osmium.Proofs.FirstEntry
import Osmium.Proofs.Handoff
import Osmium.Proofs.HeapFit
import Osmium.Proofs.Interrupts
import Osmium.Proofs.PageList
import Osmium.Proofs.Progress
import Osmium.Proofs.RoundRobin
import Osmium.Proofs.Sleep
import Osmium.Proofs.Switch
