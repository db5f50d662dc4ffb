import ChartLight.CommandLine.Files
import ChartLight.Main
import ChartLight.Playback.Session
import ChartLight.Proofs.Clipping
import ChartLight.Proofs.Finality
import ChartLight.Proofs.Fit
import ChartLight.Proofs.Flashes
import ChartLight.Proofs.Independence
import ChartLight.Proofs.RoundTrip
import ChartLight.Proofs.Rounds
import ChartLight.Proofs.Slicing
import ChartLight.Proofs.TimeScales
import ChartLight.Proofs.WaitOrder
import ChartLight.Proofs.Timing
import ChartLight.Proofs.Expressible
import ChartLight.Proofs.Lengths
import ChartLight.Proofs.Showing
import ChartLight.Proofs.Clauses
import ChartLight.Proofs.Prose
import ChartLight.Proofs.Register.Effect
import ChartLight.Proofs.Register.Standing
import ChartLight.Proofs.Latest
import ChartLight.Proofs.DefaultPeriod
import ChartLight.Proofs.Words
import ChartLight.Proofs.LongFlash
import ChartLight.Proofs.Eclipses
import ChartLight.Proofs.Refusal
import ChartLight.Proofs.FirstLight
import ChartLight.Proofs.Announcement
import ChartLight.Proofs.QuickLights
import ChartLight.Proofs.MarkNames
import ChartLight.Proofs.WholeCycles
import ChartLight.Proofs.Spelling
import ChartLight.Proofs.WrittenPeriod
import ChartLight.Proofs.FaultKinds
import ChartLight.Proofs.Sizes
import ChartLight.Proofs.Alternation
