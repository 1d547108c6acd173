import Monody.Proofs.Binary64.Ceiling
import Monody.Proofs.Binary64.Time
import Monody.Proofs.Melody.Transpose
import Monody.Proofs.Number
import Monody.Proofs.Outcome

/-!
# Scaled scores

Scaling writes the notes and pauses of a score with multiplied durations, rounded up to whole
milliseconds, and leaves everything else as it is. What it writes is read as the scaled score, except
that a product below the decimal places that are looked at is written as a duration of zero, which is
no duration of a score.

A multiplier that has too many digits to be shown is refused. Where anything is multiplied by it, its
products are out of range already; so this is met by scores of comments only.

## Main definitions

* `Number.IsNoise` — products that vanish
* `Event.Scaled` — an event and what it becomes

## Main results

* `exists_scaleDuration` — a duration is scaled to a whole number, which is zero only for noise
* `isRewriting_scale` — the event of one token is scaled and read back
* `parse_scale` — a score is scaled and read back
-/

namespace Monody

open Binary64

attribute [local irreducible] one bound

variable {n : ℕ} {x y : Binary64}

namespace Number

variable {p q r : Number}

/-- A product that is rounded to nothing: at most half a unit of the last decimal place. -/
def IsNoise : Number → Prop
  | .real (.finite _ n _) => 2 * (n * 10 ^ Melody.ceilingPlaces) ≤ one
  | _ => False

theorem toReal_ofReal (hn : Fits n) :
    (Number.ofReal (.finite false n hn)).toReal = .ok (.finite false n hn) := by
  rcases Melody.ofReal_cases hn with ⟨k, rfl, hwhole⟩ | ⟨-, hreal⟩
  · rw [hwhole]
    exact realOfInt_of_fits hn
  · rw [hreal]
    rfl

/-- The product of two numbers is whole if both are, and otherwise that of the reals next to them. -/
theorem mul_cases (h : p.mul q = .ok r) :
    (∃ a b, p = .whole a ∧ q = .whole b ∧ r = .whole (a * b)) ∨
      ∃ x y, p.toReal = .ok x ∧ q.toReal = .ok y ∧ r = .real (x * y) := by
  have hreal (h : (do return real ((← p.toReal) * (← q.toReal))) = Except.ok r) :
      ∃ x y, p.toReal = .ok x ∧ q.toReal = .ok y ∧ r = .real (x * y) := by
    obtain ⟨x, hx, h⟩ := exists_of_bind_eq_ok h
    obtain ⟨y, hy, h⟩ := exists_of_bind_eq_ok h
    exact ⟨x, y, hx, hy, (Except.ok.inj h).symm⟩
  cases p with
  | whole a =>
    cases q with
    | whole b => exact .inl ⟨a, b, rfl, rfl, (Except.ok.inj h).symm⟩
    | real y => exact .inr (hreal h)
  | real x => exact .inr (hreal h)

end Number

namespace Melody

variable {multiplier p : Number} {time : Binary64} {e e' : Event} {es es' : List Event}
  {token : Token} {text : List Char} {m : Melody}

/-! ## Single durations -/

theorem exists_units_of_ofRatio (num den : ℕ) (h : (ofRatio false num den).isFinite) :
    ∃ u hu, ofRatio false num den = .finite false u hu := by
  rw [ofRatio] at h ⊢
  split
  · next hlt => exact ⟨_, fits_roundUnits hlt, rfl⟩
  · next hlt =>
    rw [dif_neg hlt] at h
    cases h

/-- A product of a positive duration and a positive multiplier is a positive whole number, or it is
real and not negative. -/
theorem product_cases (hn0 : 0 < n) {hn : Fits n} (hpos : 0 < multiplier)
    (hp : (Number.ofReal (.finite false n hn)).mul multiplier = .ok p) (hbounded : p.IsBounded) :
    (∃ k : ℕ, p = .whole k ∧ 0 < k ∧ (Binary64.ofInt k).isFinite) ∨
      ∃ u hu, p = .real (.finite false u hu) := by
  obtain ⟨z, hz, hzfinite⟩ := hbounded
  rcases Number.mul_cases hp with ⟨a, b, ha, rfl, rfl⟩ | ⟨x, y, hx, hy, rfl⟩
  · refine .inl ?_
    have hb : 0 < b := compare_lt_iff_lt.mp (Option.some.inj hpos)
    obtain ⟨k, rfl⟩ : ∃ k : ℕ, b = k := ⟨b.toNat, (Int.toNat_of_nonneg hb.le).symm⟩
    rcases ofReal_cases hn with ⟨d, rfl, hwhole⟩ | ⟨-, hreal⟩
    · obtain rfl : (d : ℤ) = a := Number.whole.inj (hwhole.symm.trans ha)
      have hd : 0 < d := Nat.pos_of_mul_pos_right hn0
      refine ⟨d * k, congrArg _ (Nat.cast_mul d k).symm, Nat.mul_pos hd (Int.natCast_pos.mp hb), ?_⟩
      rw [Nat.cast_mul]
      by_contra hinfinite
      cases (if_neg hinfinite).symm.trans hz
    · cases hreal.symm.trans ha
  · -- a finite product has finite factors
    obtain rfl := Except.ok.inj ((Number.toReal_ofReal hn).symm.trans hx)
    obtain rfl := Except.ok.inj hz
    obtain ⟨m, hm, rfl, -⟩ := Number.exists_units_of_toReal hpos hy (isFinite_of_isFinite_mul hzfinite)
    obtain ⟨u, hu, heq⟩ := exists_units_of_ofRatio (n * m) one hzfinite
    exact .inr ⟨u, hu, congrArg _ heq⟩

theorem tenPow_ceilingPlaces_le_one : 10 ^ ceilingPlaces ≤ one := by
  have hplaces : 4 * ceilingPlaces ≤ unitPlaces := by decide
  calc 10 ^ ceilingPlaces ≤ (2 ^ 4) ^ ceilingPlaces := Nat.pow_le_pow_left (by decide) _
    _ = 2 ^ (4 * ceilingPlaces) := (Nat.pow_mul ..).symm
    _ ≤ 2 ^ unitPlaces := Nat.pow_le_pow_right (by decide) hplaces
    _ = one := one_eq.symm

theorem scaleDuration_whole {duration : Number} {k : ℤ} (h : duration.mul multiplier = .ok (.whole k)) :
    scaleDuration duration multiplier = .ok k := by
  rw [scaleDuration, h]
  rfl

theorem scaleDuration_real {duration : Number} (h : duration.mul multiplier = .ok (.real x)) :
    scaleDuration duration multiplier = Number.ceil (x.roundPlaces ceilingPlaces) := by
  rw [scaleDuration, h]
  rfl

theorem isNoise_real {u : ℕ} (hu : Fits u) :
    (Number.real (.finite false u hu)).IsNoise ↔ 2 * (u * 10 ^ ceilingPlaces) ≤ one := by
  rw [Number.IsNoise]

/-- A duration is scaled to a whole number in range, which is zero only for noise, and which is held
exactly if the product was rounded. -/
theorem exists_scaleDuration (hn0 : 0 < n) {hn : Fits n} (hpos : 0 < multiplier)
    (hp : (Number.ofReal (.finite false n hn)).mul multiplier = .ok p) (hbounded : p.IsBounded) :
    ∃ k : ℕ, scaleDuration (.ofReal (.finite false n hn)) multiplier = .ok k ∧
      (Binary64.ofInt k).isFinite ∧ (k = 0 ↔ p.IsNoise) ∧ (∀ x, p = .real x → Fits (k * one)) := by
  rcases product_cases hn0 hpos hp hbounded with ⟨k, rfl, hk, hfinite⟩ | ⟨u, hu, rfl⟩
  · exact ⟨k, scaleDuration_whole hp, hfinite, iff_of_false hk.ne' id, nofun⟩
  · obtain ⟨k, hk, hfits, hzero⟩ := exists_ceil_roundPlaces tenPow_ceilingPlaces_le_one hu
    rw [← isNoise_real hu] at hzero
    exact ⟨k, (scaleDuration_real hp).trans hk, isFinite_ofInt hfits, hzero, fun _ _ => hfits⟩

/-- A whole number in the range of the reals is shown. -/
theorem isShown_of_isFinite_ofInt {k : ℕ} (hk : 0 < k) (hfinite : (Binary64.ofInt k).isFinite) :
    Text.isShown k := by
  obtain ⟨_, _, _, _, _, hlt⟩ := exists_ofInt_eq_finite hk hfinite
  refine Text.isShown_iff.mpr ?_
  rw [Int.natAbs_natCast]
  exact (hlt.trans two_pow_lt_ten_pow).trans_le (Nat.pow_le_pow_right (by decide) (by decide))

/-- A multiplier that has a product in range is shown. -/
theorem isShown_of_isBounded_mul (hn0 : 0 < n) {hn : Fits n} (hpos : 0 < multiplier)
    (hp : (Number.ofReal (.finite false n hn)).mul multiplier = .ok p) (hbounded : p.IsBounded) :
    multiplier.isShown := by
  cases multiplier with
  | real y => rfl
  | whole b =>
    have hb : 0 < b := compare_lt_iff_lt.mp (Option.some.inj hpos)
    obtain ⟨k, rfl⟩ : ∃ k : ℕ, b = k := ⟨b.toNat, (Int.toNat_of_nonneg hb.le).symm⟩
    have hk : 0 < k := Int.natCast_pos.mp hb
    rcases product_cases hn0 hpos hp hbounded with ⟨j, rfl, hj, hfinite⟩ | ⟨u, hu, rfl⟩
    · -- the multiplier is at most the product
      rcases Number.mul_cases hp with ⟨a, b, ha, hb, hab⟩ | ⟨_, _, _, _, hreal⟩
      · obtain rfl := Number.whole.inj hb
        have hle : k ≤ j := by
          have hab' : (j : ℤ) = a * k := Number.whole.inj hab
          exact Int.ofNat_le.mp (Int.le_of_dvd (Int.natCast_pos.mpr hj) (Dvd.intro_left _ hab'.symm))
        exact Text.isShown_of_le hle (isShown_of_isFinite_ofInt hj hfinite)
      · cases hreal
    · rcases Number.mul_cases hp with ⟨_, _, _, _, hwhole⟩ | ⟨x, y, hx, hy, hxy⟩
      · cases hwhole
      · obtain ⟨hfinite, -⟩ := Number.realOfInt_eq_ok_iff.mp hy
        exact isShown_of_isFinite_ofInt hk hfinite

/-! ## Single events -/

/-- An event that can be scaled: it can be written, and its duration has a product in range. -/
structure Event.IsScalable (multiplier : Number) (e : Event) : Prop extends e.IsWritable where
  bounded : ¬ e.isComment → ∃ p, (Number.ofReal e.duration).mul multiplier = .ok p ∧ p.IsBounded

/-- An event and what it becomes when durations are multiplied. A comment stays. A note or a pause
keeps what it is, and its duration becomes the scaled one; a product that is noise becomes a flaw. -/
structure Event.Scaled (multiplier : Number) (e e' : Event) : Prop where
  content : e'.content = e.content
  comment : e.isComment → e'.raw = e.raw ∧ e'.flaw = none
  timed : ¬ e.isComment → ∃ (p : Number) (k : ℕ),
    (Number.ofReal e.duration).mul multiplier = .ok p ∧
    scaleDuration (.ofReal e.duration) multiplier = .ok k ∧
    (p.IsNoise → k = 0 ∧ e'.flaw ≠ none) ∧
    (¬ p.IsNoise → 0 < k ∧ e'.flaw = none ∧ e'.duration = .ofInt k ∧
      (Number.ofReal e'.duration = .whole k ↔ Fits (k * one))) ∧
    ∀ x, p = .real x → Fits (k * one)

theorem writeDuration_zero : writeDuration (.whole 0) = .ok ['(', '0', ')'] := by
  decide +kernel

/-- A whole number of milliseconds is written, and what is written is read as it, unless it is zero. -/
theorem exists_writeDuration {k : ℕ} (hk : (Binary64.ofInt k).isFinite) :
    ∃ v stated, writeDuration (.whole k) = .ok v ∧ IsDurationShape v ∧
      durationText? v = some stated ∧
      resolveDuration? stated = if k = 0 then none else some (.ofInt k) := by
  rcases Nat.eq_zero_or_pos k with rfl | hpos
  · refine ⟨_, some ['0'], writeDuration_zero, .stated ['0'] (List.forall_mem_singleton.mpr (.inl rfl)),
      rfl, ?_⟩
    decide +kernel
  · obtain ⟨v, hv, htext⟩ := writeDuration_whole hpos hk
    obtain ⟨stated, hstated, hresolve⟩ := htext.resolve
    exact ⟨v, stated, hv, htext.shape, hstated, hresolve.trans (if_neg hpos.ne').symm⟩

/-- A pause or a note is written with the scaled duration. -/
theorem scaleEvent_timed {content : Content} (hcontent : IsTimed content) (he : e.content = content)
    {k : ℤ} (hk : scaleDuration (.ofReal e.duration) multiplier = .ok k) :
    scaleEvent multiplier e = (writeEvent e (.whole k)).mapError .number := by
  cases hcontent <;> simp only [scaleEvent, he, hk, ok_bind]

theorem duration_placed (token : Token) (time : Binary64) (content : Content) (x : Binary64)
    (cause : Option Flaw.Cause) : (placed token time content (some x) cause).duration = x := rfl

/-- A whole number is read as itself exactly if it fits. -/
theorem ofReal_ofInt_iff {k : ℕ} (hpos : 0 < k) (hfinite : (Binary64.ofInt k).isFinite) :
    Number.ofReal (.ofInt k) = .whole k ↔ Fits (k * one) := by
  refine ⟨fun h => ?_, ofReal_ofInt⟩
  obtain ⟨n, hn, heq, -⟩ := exists_ofInt_eq_finite hpos hfinite
  rw [heq] at h
  rcases ofReal_cases hn with ⟨j, rfl, hwhole⟩ | ⟨-, hreal⟩
  · obtain rfl : j = k := Int.ofNat_inj.mp (Number.whole.inj (hwhole.symm.trans h))
    exact hn
  · cases hreal.symm.trans h

/-- A pause or a note without a flaw has a positive duration. -/
theorem exists_duration_of_not_isComment (h : eventOf token time = .ok e) (hwritable : e.IsWritable)
    (hcomment : ¬ e.isComment) : ∃ n hn, e.duration = .finite false n hn ∧ 0 < n := by
  rcases eventOf_cases h hwritable.flaw with ⟨-, rfl⟩ | ⟨-, -, content, x, stated, -, hx, rfl⟩
  · exact absurd rfl hcomment
  · obtain ⟨n, hn, rfl, hn0⟩ := eq_finite_of_resolveDuration? hx hwritable.finite
    exact ⟨n, hn, rfl, hn0⟩

/-- The event of a token is scaled and written, and whatever is read from the characters that stand
for the token has the event that it becomes, at any time. -/
theorem isRewriting_scale (hpos : 0 < multiplier) :
    IsRewriting (scaleEvent multiplier) (Event.IsScalable multiplier) (fun _ _ => True)
      (Event.Scaled multiplier) := by
  intro token time e h hscalable
  rcases eventOf_cases h hscalable.flaw with ⟨hcomment, rfl⟩ |
    ⟨hcomment, hslash, content, x, stated, hcontent, hx, rfl⟩
  · -- a comment passes through
    refine ⟨token.raw, rfl, .inl ⟨hcomment, rfl⟩, fun new hnew time' _ => ?_⟩
    obtain ⟨htext, hraw⟩ := spelling_of_comment hcomment hnew
    exact ⟨_, if_pos (htext ▸ hcomment), ⟨rfl, fun _ => ⟨hraw, rfl⟩, fun hc => absurd rfl hc⟩, trivial⟩
  have htimed : (placed token time content (some x) none).isComment = false := by
    cases hcontent <;> rfl
  obtain ⟨n, hn, rfl, hn0⟩ := eq_finite_of_resolveDuration? hx hscalable.finite
  obtain ⟨p, hp, hbounded⟩ := hscalable.bounded (by simp [htimed])
  obtain ⟨k, hk, hfinite, hzero, hexact⟩ := exists_scaleDuration hn0 hpos hp hbounded
  obtain ⟨v, stated', hv, hshape, hstated, hresolve⟩ := exists_writeDuration hfinite
  obtain ⟨w, hplain, hwrite, hread⟩ := writeEvent_timed hcontent hv hshape.isClosed hstated
  refine ⟨w, ?_, .inr ⟨hcomment, hslash, hplain⟩, fun new hnew time' _ => ?_⟩
  · rw [scaleEvent_timed hcontent rfl hk]
    exact mapError_eq_ok_iff.mpr (hwrite _ rfl)
  have htext : new.text = w := text_of_not_comment hcomment hnew
  obtain ⟨cause, he'⟩ := hread new time' htext
  refine ⟨_, he', ⟨rfl, fun hc => ?_, fun _ => ⟨p, k, hp, hk, fun hnoise => ?_, fun hnoise => ?_,
    hexact⟩⟩, trivial⟩
  · rw [htimed] at hc
    cases hc
  · -- what is written for noise is a duration in shape, and no duration when it is read
    have hk0 := hzero.mpr hnoise
    rw [if_pos hk0] at hresolve
    rw [flawOfDuration, hresolve]
    exact ⟨hk0, Option.some_ne_none _⟩
  · have hk0 := mt hzero.mp hnoise
    rw [if_neg hk0] at hresolve
    rw [flawOfDuration, hresolve]
    refine ⟨Nat.pos_of_ne_zero hk0, rfl, duration_placed .., ?_⟩
    rw [duration_placed]
    exact ofReal_ofInt_iff (Nat.pos_of_ne_zero hk0) hfinite

/-- What scaling promises for an event: it stays what it is, and its duration is the scaled one. -/
structure Event.Scales (multiplier : Number) (e e' : Event) : Prop where
  content : e'.content = e.content
  flaw : e'.flaw = none
  raw : e.isComment → e'.raw = e.raw
  duration : ¬ e.isComment → ∃ k, scaleDuration (.ofReal e.duration) multiplier = .ok k ∧ 1 ≤ k ∧
    Number.ofReal e'.duration = .whole k

/-- An event whose product is no noise, and whose scaled duration is held exactly. -/
def Event.IsHeld (multiplier : Number) (e : Event) : Prop :=
  ¬ e.isComment → ∃ (p : Number) (k : ℕ), (Number.ofReal e.duration).mul multiplier = .ok p ∧
    scaleDuration (.ofReal e.duration) multiplier = .ok k ∧ ¬ p.IsNoise ∧ Fits (k * one)

/-- The promise is kept exactly for events whose scaled durations are held. -/
theorem Event.Scaled.scales_iff (h : e.Scaled multiplier e') :
    e.Scales multiplier e' ↔ e.IsHeld multiplier := by
  constructor
  · intro hs hcomment
    obtain ⟨p, k, hp, hk, hnoise, hsound, -⟩ := h.timed hcomment
    have hnot : ¬ p.IsNoise := fun hp' => (hnoise hp').2 hs.flaw
    obtain ⟨k', hk', -, hduration⟩ := hs.duration hcomment
    obtain rfl := Except.ok.inj (hk.symm.trans hk')
    exact ⟨p, k, hp, hk, hnot, (hsound hnot).2.2.2.mp hduration⟩
  · intro hheld
    by_cases hcomment : e.isComment = true
    · obtain ⟨hraw, hflaw⟩ := h.comment hcomment
      exact ⟨h.content, hflaw, fun _ => hraw, fun hc => absurd hcomment hc⟩
    · obtain ⟨p, k, hp, hk, -, hsound, -⟩ := h.timed hcomment
      obtain ⟨p', k', hp', hk', hnot, hfits⟩ := hheld hcomment
      obtain rfl := Except.ok.inj (hp.symm.trans hp')
      obtain rfl : k = k' := Int.ofNat_inj.mp (Except.ok.inj (hk.symm.trans hk'))
      obtain ⟨hpos, hflaw, -, hexact⟩ := hsound hnot
      exact ⟨h.content, hflaw, fun hc => absurd hc hcomment,
        fun _ => ⟨k, hk, Int.ofNat_le.mpr hpos, hexact.mpr hfits⟩⟩

/-! ## Whole scores -/

theorem scale_eq_map (hpos : 0 < multiplier) (hshown : multiplier.isShown)
    (h : ∀ e ∈ es, e.flaw = none) :
    scale es multiplier = (es.mapM (scaleEvent multiplier)).map joinTokens := by
  have hshow : require multiplier.isShown TransformFault.notShown = .ok () := if_pos hshown
  rw [scale, if_neg (Number.not_le_zero_of_pos hpos), requireSound_eq_ok h, hshow]
  rfl

/-- A multiplier that is not shown is refused once all events are scaled. -/
theorem scale_of_not_isShown (hpos : 0 < multiplier) (hshown : ¬ multiplier.isShown)
    (h : ∀ e ∈ es, e.flaw = none) (hmap : (es.mapM (scaleEvent multiplier)).isOk) :
    scale es multiplier = .error .notShown := by
  obtain ⟨ws, hws⟩ := exists_ok_of_isOk hmap
  have hshow : require multiplier.isShown TransformFault.notShown = .error .notShown := if_neg hshown
  rw [scale, if_neg (Number.not_le_zero_of_pos hpos), requireSound_eq_ok h, hws, hshow]
  rfl

/-- A multiplier that is not shown has no product in range, so that only comments can be scaled by it. -/
theorem isComment_of_not_isShown (hpos : 0 < multiplier) (hshown : ¬ multiplier.isShown)
    (hparse : parse text = .ok m) (h : ∀ e ∈ m.events, e.IsScalable multiplier) :
    ∀ e ∈ m.events, e.isComment := by
  intro e he
  by_contra hcomment
  obtain ⟨token, time, hevent⟩ := exists_eventOf (readEvents_of_parse hparse) e he
  obtain ⟨n, hn, hduration, hn0⟩ :=
    exists_duration_of_not_isComment hevent (h e he).toIsWritable hcomment
  obtain ⟨p, hp, hbounded⟩ := (h e he).bounded hcomment
  rw [hduration] at hp
  exact hshown (isShown_of_isBounded_mul hn0 hpos hp hbounded)

theorem forall₂_scales_iff (h : List.Forall₂ (Event.Scaled multiplier) es es') :
    List.Forall₂ (Event.Scales multiplier) es es' ↔ ∀ e ∈ es, e.IsHeld multiplier := by
  induction h with
  | nil => exact iff_of_true .nil fun e he => absurd he List.not_mem_nil
  | cons hscaled _ ih => rw [List.forall₂_cons, List.forall_mem_cons, hscaled.scales_iff, ih]

/-- **What scaling writes is the scaled score, as far as durations hold it.** A score without flaws,
with finite durations and with products in range, is scaled by a positive number that is shown. What is
written is read as the same events, with the same kinds, pitches and comments. A note or a pause lasts as
long as its scaled duration, which is at least one, if its product is no noise and the scaled duration is
held exactly, as it is whenever the product was rounded. If the product is noise, a zero is written,
which is a flaw. A multiplier that is not shown is refused, and there are only comments then. -/
theorem parse_scale (hparse : parse text = .ok m) (hsound : m.isFlawed = false)
    (hfinite : ∀ e ∈ m.events, e.duration.isFinite) (hpos : 0 < multiplier)
    (hbounded : ∀ e ∈ m.events, ¬ e.isComment →
      ∃ p, (Number.ofReal e.duration).mul multiplier = .ok p ∧ p.IsBounded) :
    (multiplier.isShown → ∃ written m', scale m.events multiplier = .ok written ∧
      parse written = .ok m' ∧ List.Forall₂ (Event.Scaled multiplier) m.events m'.events ∧
      (List.Forall₂ (Event.Scales multiplier) m.events m'.events ↔
        ∀ e ∈ m.events, e.IsHeld multiplier)) ∧
    (¬ multiplier.isShown → (∀ e ∈ m.events, e.isComment) ∧
      scale m.events multiplier = .error .notShown) := by
  have hflaw := isFlawed_eq_false_iff.mp hsound
  have hscalable : ∀ e ∈ m.events, e.IsScalable multiplier :=
    fun e he => ⟨⟨hflaw e he, hfinite e he⟩, hbounded e he⟩
  obtain ⟨ws, m', hws, hparse', hscaled⟩ :=
    parse_respelled (isRewriting_scale hpos) trivial hparse hscalable
  refine ⟨fun hshown => ⟨joinTokens ws, m', ?_, hparse', hscaled, forall₂_scales_iff hscaled⟩,
    fun hshown => ⟨isComment_of_not_isShown hpos hshown hparse hscalable,
      scale_of_not_isShown hpos hshown hflaw (congrArg Except.isOk hws)⟩⟩
  rw [scale_eq_map hpos hshown hflaw, hws]
  rfl

/-- A comment, a note that states everything, a pause and a fraction, half as long again. -/
theorem parse_scale_song :
    ∃ m written m', parse "//x/ (// c#5(250) p\nd(2.50)".toList = .ok m ∧
      scale m.events (.real (.ofDecimal false ⟨15, -1⟩)) = .ok written ∧ parse written = .ok m' ∧
      List.Forall₂ (Event.Scaled (.real (.ofDecimal false ⟨15, -1⟩))) m.events m'.events ∧
      (List.Forall₂ (Event.Scales (.real (.ofDecimal false ⟨15, -1⟩))) m.events m'.events ↔
        ∀ e ∈ m.events, e.IsHeld (.real (.ofDecimal false ⟨15, -1⟩))) := by
  obtain ⟨m, hparse, hsound, hfinite, hbounded⟩ :
      ∃ m, parse "//x/ (// c#5(250) p\nd(2.50)".toList = .ok m ∧ m.isFlawed = false ∧
        (∀ e ∈ m.events, e.duration.isFinite) ∧
        ∀ e ∈ m.events, ¬ e.isComment → ∃ p, (Number.ofReal e.duration).mul
          (.real (.ofDecimal false ⟨15, -1⟩)) = .ok p ∧ p.IsBounded := by
    refine ⟨⟨_, _⟩, rfl, ?_, ?_, ?_⟩ <;> decide +kernel
  obtain ⟨hread, -⟩ := parse_scale hparse hsound hfinite (by decide +kernel) hbounded
  obtain ⟨written, m', hread⟩ := hread rfl
  exact ⟨m, written, m', hparse, hread⟩

/-- A product of `10 ^ -10` is no longer than nothing in nine decimal places, so that the default
duration is written as zero, and the note has a flaw. -/
theorem not_parse_scale : ¬ ∀ (text : List Char) (m : Melody) (multiplier : Number),
    parse text = .ok m → m.isFlawed = false → (∀ e ∈ m.events, e.duration.isFinite) →
    0 < multiplier → (∀ e ∈ m.events, ¬ e.isComment →
      ∃ p, (Number.ofReal e.duration).mul multiplier = .ok p ∧ p.IsBounded) →
    ∃ written m', scale m.events multiplier = .ok written ∧ parse written = .ok m' ∧
      List.Forall₂ (Event.Scales multiplier) m.events m'.events := by
  intro h
  obtain ⟨m, hparse, hsound, hfinite, hbounded, hscale⟩ :
      ∃ m, parse "C".toList = .ok m ∧ m.isFlawed = false ∧
        (∀ e ∈ m.events, e.duration.isFinite) ∧
        (∀ e ∈ m.events, ¬ e.isComment → ∃ p, (Number.ofReal e.duration).mul
          (.real (.ofDecimal false ⟨1, -13⟩)) = .ok p ∧ p.IsBounded) ∧
        scale m.events (.real (.ofDecimal false ⟨1, -13⟩)) = .ok "C(0)".toList := by
    refine ⟨⟨_, _⟩, rfl, ?_, ?_, ?_, ?_⟩ <;> decide +kernel
  obtain ⟨written, m', hwritten, hparse', hscales⟩ :=
    h _ m _ hparse hsound hfinite (by decide +kernel) hbounded
  obtain rfl : "C(0)".toList = written := Except.ok.inj (hscale.symm.trans hwritten)
  -- a duration of zero is not read, which is a flaw; but scaled scores have none
  have hflawed : m'.isFlawed = true := by
    obtain ⟨m₀, hm₀, hflawed⟩ : ∃ m₀, parse "C(0)".toList = .ok m₀ ∧ m₀.isFlawed = true := by
      refine ⟨⟨_, _⟩, rfl, ?_⟩
      decide +kernel
    obtain rfl := Except.ok.inj (hm₀.symm.trans hparse')
    exact hflawed
  have hsound' : m'.isFlawed = false := by
    refine isFlawed_eq_false_iff.mpr fun e' he' => ?_
    obtain ⟨e, -, hs⟩ := exists_of_mem_right hscales e' he'
    exact hs.flaw
  rw [hsound'] at hflawed
  cases hflawed

end Melody

end Monody
