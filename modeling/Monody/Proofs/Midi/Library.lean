import Monody.Proofs.Midi.Library.Contents
import Monody.Proofs.Midi.Library.File
import Monody.Proofs.Midi.Library.Message
import Monody.Proofs.Midi.Library.Sizes
import Monody.Proofs.Midi.Library.Tempo
import Monody.Proofs.Midi.Library.Writing

/-!
# Facts about the MIDI library

The definitions of the MIDI library are opened in the modules under this name and nowhere else. What the
program relies on of the library is what these modules prove of it.

## Main results

* `Data.ofInt_val`, `Data.val_of_ofInt`, `Data.exists_ofInt` — the data bytes are the integers in range
* `Message.ofInts_val`, `Message.ofInts_of_not_channel`, `Message.ofInts_of_not_data` — messages are built
  of integers in range and of no others
* `TrackEvent.ofTempo?_eq_some_iff` — an event states a tempo in range and no other
* `Tempo.ofBpm_of_mul_eq` — the tempo of beats that divide a minute
* `Tempo.secondsOfTicks_eq`, `Tempo.exists_of_secondsOfTicks` — the length of ticks
* `isOk_writeEvents_iff`, `isOk_writeFile_iff`, `exists_whole_of_writeFile` — which tracks have a file
* `length_le_of_writeEvents`, `exists_of_writeEvents_message`, `exists_of_writeEvents_zero`,
  `length_of_writeEvents_nil` — how long the data of a track is
* `readFile_writeFile` — a file that was written is read back, unless a name in it is too long
* `isReadable_of_readFile`, `natAbs_resolution_le` — what a file that was read can state
-/
