import Monody.Midi.Import
import Monody.Proofs.Midi.Library

/-!
# Titles and tempi of files

The title of a track is one of its names, and so it can be written and read again. The changes of tempo
that a tempo map is made of are those of the tracks.

## Main results

* `isName_title` — the title of a track of a file
* `le_greatest_of_mem_tempi` — the tempi of a file
-/

namespace Monody.Midi

variable {bytes : List UInt8} {t : Track} {f : File}

/-- The title of a track of a file can be written and read, if it is not empty. -/
theorem isName_title (h : readFile bytes = .ok f) (ht : t ∈ f.tracks) : IsName t.title := by
  have hreadable := isReadable_of_readFile h t ht
  rw [Track.title]
  generalize htitle : List.findSome? _ t = title?
  cases title? with
  | none => exact isName_nil
  | some text =>
    obtain ⟨e, he, heq⟩ := List.exists_of_findSome?_eq_some htitle
    split at heq
    · next hname =>
      obtain rfl := Option.some.inj heq
      have hevent := hreadable e he
      rw [hname] at hevent
      exact hevent
    · cases heq

theorem mem_of_mem_placedFrom {tick : Int} {p : Int × TrackEvent} (h : p ∈ t.placedFrom tick) :
    ∃ e ∈ t, e.event = p.2 := by
  induction t generalizing tick with
  | nil => exact absurd h List.not_mem_nil
  | cons e t ih =>
    rcases List.mem_cons.mp h with rfl | h
    · exact ⟨e, List.mem_cons_self, rfl⟩
    · obtain ⟨e', he', heq⟩ := ih h
      exact ⟨e', List.mem_cons_of_mem _ he', heq⟩

/-- The tempi of a file are natural numbers of three bytes. -/
theorem le_greatest_of_mem_tempi (h : readFile bytes = .ok f) {change : Int × Int}
    (hchange : change ∈ f.tracks.flatMap Track.tempi) :
    0 ≤ change.2 ∧ change.2 ≤ Tempo.greatest := by
  obtain ⟨t, ht, hchange⟩ := List.mem_flatMap.mp hchange
  obtain ⟨p, hp, heq⟩ := List.mem_filterMap.mp hchange
  obtain ⟨e, he, hevent⟩ := mem_of_mem_placedFrom hp
  have hreadable := isReadable_of_readFile h t ht e he
  rw [hevent] at hreadable
  split at heq
  · next microseconds htempo =>
    obtain rfl := Option.some.inj heq
    rw [htempo] at hreadable
    exact ⟨Int.natCast_nonneg _, hreadable⟩
  · cases heq

end Monody.Midi
