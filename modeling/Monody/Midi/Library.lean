import Monody.Midi.Library.Reader
import Monody.Midi.Library.Tempo
import Monody.Midi.Library.Writer

/-!
# The MIDI library

Messages, files and tempi are those of a MIDI library, which the program only calls. The modules under
this name describe what the library does, and every other module uses no more of it than is listed here.

## Main definitions

* `Message`, `TrackEvent`, `Track`, `File` — what is passed to the library and returned by it
* `Message.ofNoteOn`, `Message.ofNoteOff`, `Message.ofProgram`, `Data.ofInt` — messages of integers, which
  are refused out of range
* `Message.bytes` — what is sent to a device
* `TrackEvent.ofTempo?` — the event that states a tempo, which is refused out of range
* `Tempo.ofBpm`, `Tempo.secondsOfTicks` — between beats, ticks and seconds
* `writeFile` — the bytes of tracks, or why they cannot be written
* `readFile` — the tracks of bytes, or why they cannot be read
-/
