import Monody.Config.Settings
import Monody.Device
import Monody.Listeners.Emission
import Monody.Melody.Transform
import Monody.Midi.Export
import Monody.Midi.Import
import Monody.Playback.Run
import Monody.Player
import Monody.Proofs.Playback.State
import Monody.Proofs.Playback.Cancellation
import Monody.Proofs.Binary64.Rounding
import Monody.Proofs.Binary64.Whole
import Monody.Proofs.Playback.Admissible
import Monody.Proofs.Output
import Monody.Proofs.Playback.Settled
import Monody.Proofs.Playback.Leads
import Monody.Proofs.Playback.Resources
import Monody.Proofs.Text.Digits
import Monody.Proofs.Binary64.Decimal
import Monody.Proofs.Melody.Duration
import Monody.Proofs.Melody.Events
import Monody.Proofs.Binary64.Near
import Monody.Proofs.Binary64.Halves
import Monody.Proofs.Melody.RoundTrip
import Monody.Proofs.Binary64.Error
import Monody.Proofs.Midi.Ticks
import Monody.Proofs.Midi.Tempo
import Monody.Proofs.Midi.NearestTick
import Monody.Proofs.Midi.Library
import Monody.Proofs.Midi.Strokes
import Monody.Proofs.Midi.Lines
import Monody.Proofs.Melody.Timeline
import Monody.Proofs.Melody.Condensed
import Monody.Proofs.Midi.Sounds
import Monody.Proofs.Midi.RoundTrip
import Monody.Proofs.Pitch
import Monody.Proofs.Outcome
import Monody.Proofs.Binary64.Order
import Monody.Proofs.Melody.Transpose
import Monody.Proofs.Performance.Lines
import Monody.Proofs.Performance.Score
import Monody.Proofs.Midi.Import
import Monody.Proofs.Midi.Names
import Monody.Proofs.Midi.Reexport
import Monody.Proofs.Midi.Closed
import Monody.Proofs.Midi.Resolution
import Monody.Proofs.Midi.Unnumbered
import Monody.Proofs.Midi.TickOrder
import Monody.Proofs.Midi.Weaving
import Monody.Proofs.Midi.Readback
import Monody.Proofs.Playback.Firings
import Monody.Proofs.Binary64.Time
import Monody.Proofs.Playback.Agenda
import Monody.Proofs.Playback.Logging
import Monody.Proofs.Playback.Ledger
import Monody.Proofs.Playback.Course
import Monody.Proofs.Playback.Undisturbed
import Monody.Proofs.Playback.Plans
import Monody.Proofs.Playback.Opening
import Monody.Proofs.Playback.Programme
import Monody.Proofs.Playback.Steps
import Monody.Proofs.Playback.Refusal
import Monody.Proofs.Playback.Readiness
import Monody.Proofs.Playback.Playthrough
import Monody.Proofs.Playback.Chronicle
import Monody.Proofs.Playback.Lawful
import Monody.Proofs.Playback.Lifecycle
import Monody.Proofs.Playback.Faults
import Monody.Proofs.Playback.Lineup
import Monody.Proofs.Playback.Audience
import Monody.Proofs.Playback.Deed
import Monody.Proofs.Playback.Concert
import Monody.Proofs.Playback.Sharing
import Monody.Proofs.Playback.Queue
import Monody.Proofs.Playback.Exhaustion
import Monody.Proofs.Playback.Remains
import Monody.Proofs.Playback.Mirror
import Monody.Proofs.Playback.Pristine
import Monody.Proofs.Output.Balance
import Monody.Proofs.Output.Strays
import Monody.Proofs.Config.Validity
import Monody.Proofs.Listeners.Execution
import Monody.Proofs.Listeners.Snapshot
import Monody.Proofs.Listeners.Depth
import Monody.Proofs.Melody.Multiples
import Monody.Proofs.Midi.Limits
import Monody.Proofs.Midi.Pairing
import Monody.Proofs.Number
import Monody.Proofs.Performance.Splitting
import Monody.Proofs.Performance.Drift
import Monody.Proofs.Binary64.Range
import Monody.Proofs.Midi.TickTimes
import Monody.Proofs.Midi.Monophonic
import Monody.Proofs.Midi.Solo
import Monody.Proofs.Melody.Slices
import Monody.Proofs.Melody.Octave
import Monody.Proofs.Melody.Gapless
import Monody.Proofs.Melody.Seam
import Monody.Proofs.Sorting
import Monody.Proofs.Midi.Stretches
import Monody.Proofs.Midi.Changes
import Monody.Proofs.Midi.TempoMap
import Monody.Proofs.Binary64.Midpoint
import Monody.Proofs.Binary64.Places
import Monody.Proofs.Melody.Tenths
import Monody.Proofs.Melody.Parts
import Monody.Proofs.Melody.Grammar
import Monody.Proofs.Melody.Comments
import Monody.Proofs.Melody.Endless
