import Monody.Config.Settings
import Monody.Proofs.Binary64.Midpoint
import Monody.Proofs.Binary64.Time
import Monody.Proofs.Outcome

/-!
# Settings in range, or a fault of the configuration

A configuration is to give settings that are in range, or a fault that is told as one of the configuration.
Two kinds of values get past that, and no others. A conversion may meet a number beyond the range of what
it is taken to, a whole number beyond the reals or an infinite number of ticks, and its fault is passed
on as it is. And the checks ask whether tempo and speed are at most zero, which what is not a number is
not; the volume is asked to be in range instead, so that nothing slips through there.

## Main definitions

* `Settings.IsValid`, `IsPromised` — settings that are in range, and what is promised of an outcome
* `HasSections` — the three sections of a configuration
* `IsHuge`, `IsInfinite`, `IsNotANumber` — the values that get past
* `Settings.Oversteps`, `Settings.SlipsThrough` — what the sections hold where the promise is not kept

## Main results

* `Settings.overflows_ofSections_iff` — when a conversion leaves the range
* `Settings.isValid_iff_of_isOk` — what the checks leave open
* `Settings.isPromised_ofValue_iff` — exactly the configurations for which the promise is kept
-/

namespace Monody.Config

open Binary64 (nan overflowing)

/-- A fault that is told as one of the configuration: any but that of a number out of range. -/
def SettingsFault.IsTold (fault : SettingsFault) : Prop := ∀ number, fault ≠ .range number

/-- Settings that are in range. The instrument is a known one in any case. -/
structure Settings.IsValid (s : Settings) : Prop where
  bpm : 0 < s.bpm
  resolution : 0 < s.resolution
  speed : 0 < s.speed
  volume : 0 ≤ s.volume ∧ s.volume ≤ 1
  level : (level? s.level).isSome

/-- What is promised of the settings of a configuration: they are in range, or the fault is told. -/
def IsPromised : Except SettingsFault Settings → Prop
  | .ok s => s.IsValid
  | .error fault => fault.IsTold

/-- The configuration is a mapping with these sections for tempo and resolution, for playback, and for
the log. -/
inductive HasSections : Value → (midi playback logging : List (List Char × Value)) → Prop
  | intro {entries midi playback logging : List (List Char × Value)}
      (hmidi : Settings.sectionOf entries "midi" = .ok midi)
      (hplayback : Settings.sectionOf entries "playback" = .ok playback)
      (hlogging : Settings.sectionOf entries "logging" = .ok logging) :
      HasSections (.mapping entries) midi playback logging

/-- A whole number beyond the reals. -/
def IsHuge (v : Option Value) : Prop :=
  ∃ n : ℤ, v = some (.number (.whole n)) ∧ overflowing ≤ |(n : ℚ)|

/-- An infinite number. -/
def IsInfinite (v : Option Value) : Prop :=
  ∃ negative, v = some (.number (.real (.infinite negative)))

/-- What is not a number, itself or named by a text. -/
def IsNotANumber (v : Option Value) : Prop :=
  v = some (.number (.real nan)) ∨ ∃ cs, v = some (.text cs) ∧ Text.readReal? cs = some nan

namespace Settings

variable {midi playback logging : List (List Char × Value)}

/-- Of tempo, resolution, speed and volume, the first that is not converted is a number out of range. -/
inductive Oversteps (midi playback : List (List Char × Value)) : Prop
  | bpm (h : IsHuge (Value.lookup "bpm".toList midi))
  | resolution (hbpm : (realOf midi "bpm" default.bpm).isOk)
      (h : IsInfinite (Value.lookup "ticks_per_beat".toList midi))
  | speed (hbpm : (realOf midi "bpm" default.bpm).isOk)
      (hresolution : (integerOf midi "ticks_per_beat" default.resolution).isOk)
      (h : IsHuge (Value.lookup "speed".toList playback))
  | volume (hbpm : (realOf midi "bpm" default.bpm).isOk)
      (hresolution : (integerOf midi "ticks_per_beat" default.resolution).isOk)
      (hspeed : (realOf playback "speed" default.speed).isOk)
      (h : IsHuge (Value.lookup "volume".toList playback))

/-- The settings pass the checks with a tempo or a speed that is not a number. -/
def SlipsThrough (midi playback logging : List (List Char × Value)) : Prop :=
  (∃ s, ofSections midi playback logging = .ok s ∧ s.checked.isOk) ∧
    (IsNotANumber (Value.lookup "bpm".toList midi) ∨
      IsNotANumber (Value.lookup "speed".toList playback))

/-! ## Conversions that leave the range -/

section Overflows

variable {α β : Type}

/-- The conversion fails by a number that is out of range. -/
def Overflows (x : Except ConversionFault α) : Prop :=
  ∃ fault number, x = .error fault ∧ SettingsFault.ofConversion fault = .range number

theorem not_overflows_ok (a : α) : ¬ Overflows (.ok a) := by
  rintro ⟨_, _, h, -⟩
  cases h

theorem overflows_error_iff {fault : ConversionFault} :
    Overflows (.error fault : Except ConversionFault α) ↔
      ∃ number, SettingsFault.ofConversion fault = .range number := by
  constructor
  · rintro ⟨_, number, h, hrange⟩
    exact ⟨number, Except.error.inj h ▸ hrange⟩
  · rintro ⟨number, hrange⟩
    exact ⟨fault, number, rfl, hrange⟩

/-- A chain leaves the range in its first step, or after it. -/
theorem overflows_bind_iff {x : Except ConversionFault α} {f : α → Except ConversionFault β} :
    Overflows (x >>= f) ↔ Overflows x ∨ ∃ a, x = .ok a ∧ Overflows (f a) := by
  cases x with
  | error fault =>
    have hbind : (Except.error fault >>= f) = .error fault := rfl
    rw [hbind, overflows_error_iff, overflows_error_iff]
    exact ⟨.inl, fun h => h.resolve_right (by rintro ⟨a, ha, -⟩; cases ha)⟩
  | ok a =>
    rw [ok_bind]
    constructor
    · exact fun h => .inr ⟨a, rfl, h⟩
    · rintro (h | ⟨b, hb, h⟩)
      · exact absurd h (not_overflows_ok a)
      · exact Except.ok.inj hb ▸ h

end Overflows

theorem overflows_toReal_iff {v : Value} : Overflows (toReal v) ↔ IsHuge (some v) := by
  cases v with
  | bool b => simp [toReal, IsHuge, not_overflows_ok]
  | number n =>
    cases n with
    | whole n =>
      have hhuge : IsHuge (some (.number (.whole n))) ↔ overflowing ≤ |(n : ℚ)| := by simp [IsHuge]
      rw [hhuge, ← not_lt, ← Binary64.isFinite_ofInt_iff]
      by_cases hfinite : (Binary64.ofInt n).isFinite
      · simp [toReal, Number.toReal, Number.realOfInt, hfinite, not_overflows_ok]
      · have hfault : toReal (.number (.whole n)) = .error (.number .tooLarge) := by
          simp [toReal, Number.toReal, Number.realOfInt, hfinite, Except.mapError]
        rw [hfault]
        exact iff_of_true (overflows_error_iff.mpr ⟨_, rfl⟩) hfinite
    | real x => simp [toReal, Number.toReal, IsHuge, not_overflows_ok]
  | text cs =>
    cases hread : Text.readReal? cs <;>
      simp [toReal, hread, IsHuge, not_overflows_ok, overflows_error_iff, SettingsFault.ofConversion]
  | null | list items | mapping entries =>
    simp [toReal, IsHuge, overflows_error_iff, SettingsFault.ofConversion]

theorem overflows_toInteger_iff {v : Value} : Overflows (toInteger v) ↔ IsInfinite (some v) := by
  -- of the reals that are no integers only infinities overflow; `nan` is told as a fault
  cases v with
  | bool b => simp [toInteger, IsInfinite, not_overflows_ok]
  | number n =>
    cases n with
    | whole n => simp [toInteger, IsInfinite, not_overflows_ok]
    | real x =>
      cases x with
      | finite negative n hn =>
        refine iff_of_false (not_overflows_ok _) ?_
        rintro ⟨_, h⟩
        cases h
      | infinite negative =>
        have hfault : toInteger (.number (.real (.infinite negative))) = .error (.number .infinite) := rfl
        rw [hfault]
        exact iff_of_true (overflows_error_iff.mpr ⟨_, rfl⟩) ⟨negative, rfl⟩
      | nan =>
        have hfault : toInteger (.number (.real nan)) = .error (.number .notANumber) := rfl
        rw [hfault]
        simp [IsInfinite, overflows_error_iff, SettingsFault.ofConversion]
  | text cs =>
    cases hread : Text.readInteger cs <;>
      simp [toInteger, hread, Except.mapError, IsInfinite, not_overflows_ok, overflows_error_iff,
        SettingsFault.ofConversion]
  | null | list items | mapping entries =>
    simp [toInteger, IsInfinite, overflows_error_iff, SettingsFault.ofConversion]

theorem overflows_realOf_iff {entries : List (List Char × Value)} {key : String} {x : Binary64} :
    Overflows (realOf entries key x) ↔ IsHuge (Value.lookup key.toList entries) := by
  rw [realOf]
  cases Value.lookup key.toList entries with
  | none => simp [IsHuge, not_overflows_ok]
  | some v => exact overflows_toReal_iff

theorem overflows_integerOf_iff {entries : List (List Char × Value)} {key : String} {z : ℤ} :
    Overflows (integerOf entries key z) ↔ IsInfinite (Value.lookup key.toList entries) := by
  rw [integerOf]
  cases Value.lookup key.toList entries with
  | none => simp [IsInfinite, not_overflows_ok]
  | some v => exact overflows_toInteger_iff

theorem not_overflows_toText (v : Value) : ¬ Overflows (toText v) := by
  rw [toText]
  cases v.display? <;> simp [not_overflows_ok, overflows_error_iff, SettingsFault.ofConversion]

theorem not_overflows_textOf (entries : List (List Char × Value)) (key : String) (cs : List Char) :
    ¬ Overflows (textOf entries key cs) := by
  rw [textOf]
  cases Value.lookup key.toList entries with
  | none => exact not_overflows_ok _
  | some v => exact not_overflows_toText v

theorem not_overflows_instrumentOf (entries : List (List Char × Value)) :
    ¬ Overflows (instrumentOf entries) := by
  rw [instrumentOf]
  split
  · exact not_overflows_ok _
  · exact not_overflows_ok _
  · rw [overflows_bind_iff]
    rintro (h | ⟨cs, -, h⟩)
    · exact not_overflows_toText _ h
    · cases hname : Instrument.ofName cs <;>
        simp [hname, Except.mapError, not_overflows_ok, overflows_error_iff,
          SettingsFault.ofConversion] at h

/-- The conversion of the sections leaves the range at the first value that is not converted. -/
theorem overflows_ofSections_iff : Overflows (ofSections midi playback logging) ↔
    (instrumentOf playback).isOk ∧ Oversteps midi playback := by
  have hpure (s : Settings) : ¬ Overflows (pure s) := not_overflows_ok s
  simp only [ofSections, overflows_bind_iff, not_overflows_instrumentOf, overflows_realOf_iff,
    overflows_integerOf_iff, not_overflows_textOf, hpure, and_false, exists_false, or_false, false_or,
    exists_and_right, ← isOk_iff_exists]
  refine and_congr_right fun _ => ⟨?_, ?_⟩
  · rintro (h | ⟨hbpm, h | ⟨hresolution, h | ⟨hspeed, h⟩⟩⟩)
    · exact .bpm h
    · exact .resolution hbpm h
    · exact .speed hbpm hresolution h
    · exact .volume hbpm hresolution hspeed h
  · rintro (h | ⟨hbpm, h⟩ | ⟨hbpm, hresolution, h⟩ | ⟨hbpm, hresolution, hspeed, h⟩)
    · exact .inl h
    · exact .inr ⟨hbpm, .inl h⟩
    · exact .inr ⟨hbpm, .inr ⟨hresolution, .inl h⟩⟩
    · exact .inr ⟨hbpm, .inr ⟨hresolution, .inr ⟨hspeed, h⟩⟩⟩

/-! ## Checks -/

section Checks

variable {s : Settings}

theorem isOk_checked_iff : s.checked.isOk ↔ ¬ s.bpm ≤ 0 ∧ ¬ s.resolution ≤ 0 ∧ ¬ s.speed ≤ 0 ∧
    (0 ≤ s.volume ∧ s.volume ≤ 1) ∧ (level? s.level).isSome := by
  have hrequire {p : Prop} [Decidable p] {fault : SettingsFault} :
      (∃ u, require p fault = .ok u) ↔ p :=
    ⟨fun ⟨_, h⟩ => require_eq_ok_iff.mp h, fun hp => ⟨(), require_eq_ok_iff.mpr hp⟩⟩
  have hpure : (pure s : Except SettingsFault Settings).isOk := rfl
  simp only [checked, isOk_bind_iff, exists_and_right, hrequire, hpure, and_true]

/-- What is checked stays as it is, or has a fault that is told. -/
theorem checked_cases (s : Settings) :
    s.checked = .ok s ∨ ∃ fault, s.checked = .error fault ∧ fault.IsTold := by
  have hrequire {p : Prop} [Decidable p] {fault : SettingsFault} {x : Except SettingsFault Settings}
      (hfault : fault.IsTold) (hx : x = .ok s ∨ ∃ fault, x = .error fault ∧ fault.IsTold) :
      (require p fault >>= fun _ => x) = .ok s ∨
        ∃ f, (require p fault >>= fun _ => x) = .error f ∧ f.IsTold := by
    by_cases hp : p
    · rwa [require_eq_ok_iff.mpr hp]
    · rw [require, if_neg hp]
      exact .inr ⟨fault, rfl, hfault⟩
  have hpositive (name : String) : (SettingsFault.notPositive name).IsTold := by
    rintro _ ⟨⟩
  have hvolume : SettingsFault.volume.IsTold := by
    rintro _ ⟨⟩
  have hlevel : (SettingsFault.level s.level).IsTold := by
    rintro _ ⟨⟩
  exact hrequire (hpositive _) (hrequire (hpositive _) (hrequire (hpositive _)
    (hrequire hvolume (hrequire hlevel (.inl rfl)))))

/-- Settings that pass the checks are in range but for a tempo or a speed that is not a number. -/
theorem isValid_iff_of_isOk (h : s.checked.isOk) : s.IsValid ↔ s.bpm ≠ nan ∧ s.speed ≠ nan := by
  obtain ⟨hbpm, hresolution, hspeed, hvolume, hlevel⟩ := isOk_checked_iff.mp h
  have hpos {x : Binary64} (hx : x ≠ nan) (hle : ¬ x ≤ 0) : 0 < x :=
    not_not.mp (mt (Binary64.not_lt (Binary64.ofNat_ne_nan 0) hx).mp hle)
  constructor
  · intro hvalid
    exact ⟨(Binary64.ne_nan_of_order hvalid.bpm).2, (Binary64.ne_nan_of_order hvalid.speed).2⟩
  · rintro ⟨hbpm', hspeed'⟩
    exact ⟨hpos hbpm' hbpm, not_le.mp hresolution, hpos hspeed' hspeed, hvolume, hlevel⟩

end Checks

/-! ## What is not a number -/

theorem toReal_eq_nan_iff {v : Value} : toReal v = .ok nan ↔ IsNotANumber (some v) := by
  cases v with
  | bool b =>
    have hno : (if b then (1 : Binary64) else 0) ≠ nan := by
      cases b
      · exact Binary64.ofNat_ne_nan 0
      · exact Binary64.ofNat_ne_nan 1
    simp [toReal, IsNotANumber, hno]
  | number n =>
    cases n with
    | whole n =>
      have hno := Binary64.ofInt_ne_nan n
      by_cases hfinite : (Binary64.ofInt n).isFinite <;>
        simp [toReal, Number.toReal, Number.realOfInt, hfinite, hno, IsNotANumber]
    | real x => simp [toReal, Number.toReal, IsNotANumber]
  | text cs => cases hread : Text.readReal? cs <;> simp [toReal, hread, IsNotANumber]
  | null | list items | mapping entries => simp [toReal, IsNotANumber]

theorem realOf_eq_nan_iff {entries : List (List Char × Value)} {key : String} {x : Binary64}
    (hx : x ≠ nan) : realOf entries key x = .ok nan ↔ IsNotANumber (Value.lookup key.toList entries) := by
  rw [realOf]
  cases Value.lookup key.toList entries with
  | none => simp [IsNotANumber, hx]
  | some v => exact toReal_eq_nan_iff

theorem reals_of_ofSections {s : Settings} (h : ofSections midi playback logging = .ok s) :
    realOf midi "bpm" default.bpm = .ok s.bpm ∧ realOf playback "speed" default.speed = .ok s.speed := by
  rw [ofSections] at h
  obtain ⟨instrument, -, h⟩ := exists_of_bind_eq_ok h
  obtain ⟨bpm, hbpm, h⟩ := exists_of_bind_eq_ok h
  obtain ⟨resolution, -, h⟩ := exists_of_bind_eq_ok h
  obtain ⟨speed, hspeed, h⟩ := exists_of_bind_eq_ok h
  obtain ⟨volume, -, h⟩ := exists_of_bind_eq_ok h
  obtain ⟨level, -, h⟩ := exists_of_bind_eq_ok h
  obtain rfl := Except.ok.inj h
  exact ⟨hbpm, hspeed⟩

/-- Of converted settings, tempo and speed are numbers unless they are given as what is none. -/
theorem eq_nan_iff_of_ofSections {s : Settings} (h : ofSections midi playback logging = .ok s) :
    (s.bpm = nan ↔ IsNotANumber (Value.lookup "bpm".toList midi)) ∧
      (s.speed = nan ↔ IsNotANumber (Value.lookup "speed".toList playback)) := by
  obtain ⟨hbpm, hspeed⟩ := reals_of_ofSections h
  have hdefault : default.bpm ≠ nan ∧ default.speed ≠ nan := by
    dsimp only [default]
    exact ⟨Binary64.ofInt_ne_nan _, Binary64.ofNat_ne_nan 1⟩
  rw [← realOf_eq_nan_iff hdefault.1, hbpm, ← realOf_eq_nan_iff hdefault.2, hspeed, Except.ok.injEq,
    Except.ok.injEq]
  exact ⟨.rfl, .rfl⟩

/-! ## Configurations -/

theorem ofValue_of_hasSections {v : Value} (h : HasSections v midi playback logging) :
    ofValue v = (ofSections midi playback logging).mapError .ofConversion >>= checked := by
  obtain ⟨hmidi, hplayback, hlogging⟩ := h
  rw [ofValue, hmidi, hplayback, hlogging]
  rfl

theorem isTold_of_sectionOf {entries : List (List Char × Value)} {name : String} {fault : SettingsFault}
    (h : sectionOf entries name = .error fault) : fault.IsTold := by
  unfold sectionOf at h
  split at h
  · cases h
  · split at h
    · cases h
    · split at h
      · cases h
      · obtain rfl := Except.error.inj h
        exact nofun

/-- A configuration without the sections has a fault that is told. -/
theorem isPromised_of_not_hasSections {v : Value}
    (h : ∀ midi playback logging, ¬ HasSections v midi playback logging) : IsPromised (ofValue v) := by
  cases v with
  | mapping entries =>
    rw [ofValue]
    cases hmidi : sectionOf entries "midi" with
    | error fault => exact isTold_of_sectionOf hmidi
    | ok midi =>
      cases hplayback : sectionOf entries "playback" with
      | error fault => exact isTold_of_sectionOf hplayback
      | ok playback =>
        cases hlogging : sectionOf entries "logging" with
        | error fault => exact isTold_of_sectionOf hlogging
        | ok logging => exact absurd (.intro hmidi hplayback hlogging) (h midi playback logging)
  | null | bool b | number n | text cs | list items => exact nofun

/-- What is converted and then checked keeps the promise unless the conversion leaves the range or what
is not a number passes the checks. -/
theorem isPromised_check_iff {x : Except ConversionFault Settings} :
    IsPromised (x.mapError .ofConversion >>= checked) ↔
      ¬ Overflows x ∧ ∀ s, x = .ok s → s.checked.isOk → s.bpm ≠ nan ∧ s.speed ≠ nan := by
  cases x with
  | error fault =>
    have hbind : IsPromised ((Except.error fault).mapError .ofConversion >>= checked) ↔
        (SettingsFault.ofConversion fault).IsTold := .rfl
    rw [hbind, overflows_error_iff, not_exists]
    exact ⟨fun h => ⟨h, fun _ hs => nomatch hs⟩, fun h => h.1⟩
  | ok s =>
    rw [mapError_ok, ok_bind]
    obtain hchecked | ⟨fault, hchecked, htold⟩ := checked_cases s
    · rw [hchecked]
      have hok : s.checked.isOk := by rw [hchecked]; rfl
      refine (isValid_iff_of_isOk hok).trans ⟨fun h => ⟨not_overflows_ok s, ?_⟩, fun h => h.2 s rfl hok⟩
      rintro _ hs -
      exact Except.ok.inj hs ▸ h
    · rw [hchecked]
      refine iff_of_true htold ⟨not_overflows_ok s, ?_⟩
      rintro _ hs hok
      rw [← Except.ok.inj hs, hchecked] at hok
      cases hok

/-- What a configuration with its three sections gives. -/
theorem isPromised_ofValue_of_hasSections {v : Value} {midi playback logging : List (List Char × Value)}
    (h : HasSections v midi playback logging) : IsPromised (ofValue v) ↔
      ¬ ((instrumentOf playback).isOk ∧ Oversteps midi playback) ∧
        ¬ SlipsThrough midi playback logging := by
  rw [ofValue_of_hasSections h, isPromised_check_iff, overflows_ofSections_iff]
  refine and_congr_right fun _ => ⟨?_, ?_⟩
  -- settings that pass the checks have no `nan` exactly if the sections have none
  · rintro hnumbers ⟨⟨s, hs, hok⟩, hslips⟩
    obtain ⟨hbpm, hspeed⟩ := eq_nan_iff_of_ofSections hs
    rw [← hbpm, ← hspeed] at hslips
    exact hslips.elim (hnumbers s hs hok).1 (hnumbers s hs hok).2
  · intro hslips s hs hok
    obtain ⟨hbpm, hspeed⟩ := eq_nan_iff_of_ofSections hs
    rw [Ne, Ne, hbpm, hspeed, ← not_or]
    exact fun h => hslips ⟨⟨s, hs, hok⟩, h⟩

/-- A configuration gives settings in range or a fault that is told, unless it has its three sections and
the first value that is not converted is a number out of range, or the settings pass the checks with what
is not a number. -/
theorem isPromised_ofValue_iff (v : Value) : IsPromised (ofValue v) ↔
    ∀ midi playback logging, HasSections v midi playback logging →
      ¬ ((instrumentOf playback).isOk ∧ Oversteps midi playback) ∧
        ¬ SlipsThrough midi playback logging := by
  by_cases h : ∀ midi playback logging, ¬ HasSections v midi playback logging
  · exact iff_of_true (isPromised_of_not_hasSections h)
      fun midi playback logging hv => absurd hv (h midi playback logging)
  · push Not at h
    obtain ⟨midi, playback, logging, hv⟩ := h
    exact ⟨fun hpromised _ _ _ hv => (isPromised_ofValue_of_hasSections hv).mp hpromised,
      fun hall => (isPromised_ofValue_of_hasSections hv).mpr (hall _ _ _ hv)⟩

/-- A configuration whose tempo is not a number passes for one in range. -/
theorem not_isPromised_ofValue : ¬ ∀ v : Value, IsPromised (ofValue v) := by
  intro h
  obtain ⟨v, s, hs, hbpm⟩ : ∃ v, ∃ s, ofValue v = .ok s ∧ ¬ 0 < s.bpm :=
    ⟨.mapping [("midi".toList, .mapping [("bpm".toList, .number (.real nan))])], by decide +kernel⟩
  have hvalid := h v
  rw [hs] at hvalid
  exact hbpm hvalid.bpm

end Settings

end Monody.Config
